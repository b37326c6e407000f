/-
  The block of p2 (idz os 1/9) grows with the stream: which of its bytes the reading loop and the
  final NUL are stored in.
-/
import OsCourse.Numbers.Channel

namespace Numbers.V9

open Text

/-! ## The bytes that are written -/

/-- The variables before the loop. -/
def Reading.start (leftover : Mem) : Reading := { data := leftover, bufferSize := chuncSize, length := 0 }

/-- The iterations: the variables at the top, and what `read` stores from `data + length` on
    (nothing at the end of the file). -/
def iterations : Reading → List Text → List (Reading × Text)
  | s, [] => [(s, [])]
  | s, piece :: pieces => (s, piece) ::
    match readPiece s piece with
    | some (s', false) => iterations s' pieces
    | _ => []

/-- Room for the next piece in every iteration, and every byte that is written is in the block. -/
structure InBounds (s : Reading) (pieces : List Text) : Prop where
  top : ∀ r ∈ iterations s pieces, r.1.length + chuncSize ≤ r.1.bufferSize
  read : ∀ r ∈ iterations s pieces, ∀ i < r.2.length, r.1.length + i < r.1.bufferSize
  terminate : ∀ s', readLoop s pieces = some s' → s'.length < s'.bufferSize

/-- The chunk of the block for piece `k`: the piece, and behind it what the block holds. -/
def chunk (leftover : Mem) (k : ℕ) (piece : Text) : Text :=
  piece ++ leftover.load (chuncSize * k + piece.length) (chuncSize - piece.length)

/-- The bytes of the chunk that are searched for a NUL: as many as the piece has, at the end. -/
def searched (leftover : Mem) (k : ℕ) (piece : Text) : Text :=
  (chunk leftover k piece).drop (chuncSize - piece.length)

/-- The first NUL that is found is the last byte of a chunk whose number is a power of two, when
    `k` chunks have been read before. -/
def Overruns (leftover : Mem) (k : ℕ) (pieces : List Text) : Prop :=
  ∃ ps piece qs w, pieces = ps ++ piece :: qs ∧ (∃ j, k + ps.length + 1 = 2 ^ j) ∧
    (∀ i (h : i < ps.length), nul ∉ searched leftover (k + i) ps[i]) ∧
    searched leftover (k + ps.length) piece = w ++ [nul] ∧ nul ∉ w

/-! ## One iteration -/

variable {leftover : Mem} {s s' : Reading} {piece : Text} {pieces : List Text} {k : ℕ}

/-- At the top of the loop, when `k` pieces have been read. -/
structure Reading.At (leftover : Mem) (k : ℕ) (s : Reading) : Prop where
  length : s.length = chuncSize * k
  -- the size has been doubled as often as necessary, and not more often
  bufferSize : ∃ j, s.bufferSize = chuncSize * 2 ^ j ∧ k < 2 ^ j ∧ 2 ^ j ≤ max 1 (2 * k)
  behind : ∀ i, chuncSize * k ≤ i → s.data i = leftover i

theorem Reading.at_start (leftover : Mem) : (Reading.start leftover).At leftover 0 where
  length := rfl
  bufferSize := ⟨0, rfl, by decide, by decide⟩
  behind _ _ := rfl

theorem Reading.At.room (h : s.At leftover k) : s.length + chuncSize ≤ s.bufferSize := by
  obtain ⟨j, hsize, hlt, -⟩ := h.bufferSize
  rw [h.length, hsize, ← Nat.mul_succ]
  exact Nat.mul_le_mul_left chuncSize hlt

/-- The block ends with this chunk exactly if the number of the chunk is a power of two. -/
theorem Reading.At.room_eq_iff (h : s.At leftover k) :
    s.length + chuncSize = s.bufferSize ↔ ∃ j, k + 1 = 2 ^ j := by
  obtain ⟨j, hsize, hlt, hle⟩ := h.bufferSize
  rw [h.length, hsize, ← Nat.mul_succ]
  constructor
  · intro heq
    exact ⟨j, Nat.eq_of_mul_eq_mul_left (by decide) heq⟩
  · rintro ⟨i, hi⟩
    have hij : i = j := by
      refine Nat.le_antisymm ?_ ?_
      · refine (Nat.pow_le_pow_iff_right (a := 2) (by decide)).1 ?_
        omega
      · refine Nat.le_of_lt_succ ((Nat.pow_lt_pow_iff_right (a := 2) (by decide)).1 ?_)
        rw [Nat.pow_succ]
        omega
    rw [Nat.succ_eq_add_one, hi, hij]

/-- What `memchr` searches. -/
theorem Reading.At.load (h : s.At leftover k) (hp : piece.length ≤ chuncSize) :
    (s.data.store s.length piece).load (s.length + chuncSize - piece.length) piece.length =
      searched leftover k piece := by
  have hchunk : (s.data.store s.length piece).load s.length chuncSize = chunk leftover k piece := by
    have hsplit := Mem.load_add (s.data.store s.length piece) s.length piece.length (chuncSize - piece.length)
    rw [Nat.add_sub_cancel' hp, Mem.load_store, Mem.load_store_of_ge (Nat.le_refl _)] at hsplit
    rw [hsplit, chunk, h.length]
    exact congrArg _ (Mem.load_congr fun i hi _ => h.behind i (by omega))
  have hsplit := Mem.load_add (s.data.store s.length piece) s.length (chuncSize - piece.length) piece.length
  rw [Nat.sub_add_cancel hp, hchunk] at hsplit
  rw [searched, hsplit, List.drop_left' Mem.length_load, Nat.add_sub_assoc hp]

/-- No NUL is found. -/
theorem Reading.At.goes_on (h : s.At leftover k) (hp : piece.length ≤ chuncSize)
    (hnul : nul ∉ searched leftover k piece) : ∃ s', readPiece s piece = some (s', false) ∧ s'.At leftover (k + 1) := by
  have hroom := h.room
  have hmemchr := Mem.memchr_eq_none_iff.2 ((h.load hp).symm ▸ hnul)
  refine ⟨⟨s.data.store s.length piece,
    if s.length + chuncSize ≥ s.bufferSize - 1 then s.bufferSize * 2 else s.bufferSize, s.length + chuncSize⟩, ?_, ?_⟩
  · simp only [readPiece]
    rw [if_pos ⟨by omega, hroom⟩, hmemchr]
  · refine ⟨by rw [h.length]; rfl, ?_, fun i hi => ?_⟩
    · obtain ⟨j, hsize, hlt, hle⟩ := h.bufferSize
      show ∃ j, (if s.length + chuncSize ≥ s.bufferSize - 1 then s.bufferSize * 2 else s.bufferSize) = _ ∧ _
      rw [h.length, hsize] at hroom ⊢
      simp only [chuncSize] at hroom ⊢
      split_ifs with hgrow
      · exact ⟨j + 1, by rw [Nat.pow_succ, Nat.mul_assoc], by rw [Nat.pow_succ]; omega, by rw [Nat.pow_succ]; omega⟩
      · exact ⟨j, rfl, by omega, by omega⟩
    · show s.data.store s.length piece i = leftover i
      rw [Nat.mul_succ] at hi
      rw [Mem.store_of_ge (by rw [h.length]; omega), h.behind i (by omega)]

/-- A NUL is found. -/
theorem Reading.At.stops (h : s.At leftover k) (hp : piece.length ≤ chuncSize) {w v : Text} (hw : nul ∉ w)
    (hfound : searched leftover k piece = w ++ nul :: v) :
    readPiece s piece = some ({
      data := s.data.store s.length piece
      bufferSize := s.bufferSize
      length := s.length + chuncSize - v.length }, true) := by
  have hroom := h.room
  have hload := h.load hp
  have hlen : piece.length = w.length + (v.length + 1) := by
    rw [← List.length_cons (a := nul), ← List.length_append, ← hfound, ← hload, Mem.length_load]
  rw [hfound] at hload
  have hend : s.length + chuncSize - piece.length + w.length + 1 = s.length + chuncSize - v.length := by omega
  simp only [readPiece]
  rw [if_pos ⟨by omega, hroom⟩, Mem.memchr_of_load hload hw]
  simp only [hend]

/-! ## The loop -/

theorem inBounds_nil (hroom : s.length + chuncSize ≤ s.bufferSize) : InBounds s [] where
  top := by
    rintro r hr
    obtain rfl := List.mem_singleton.1 hr
    exact hroom
  read := by
    rintro r hr i hi
    obtain rfl := List.mem_singleton.1 hr
    exact absurd hi (Nat.not_lt_zero i)
  terminate := by
    intro s' hs
    rw [readLoop] at hs
    split_ifs at hs
    obtain rfl := Option.some.inj hs
    exact Nat.lt_of_lt_of_le (Nat.lt_add_of_pos_right (by decide)) hroom

/-- When an iteration is followed by another one. -/
theorem inBounds_cons_of_false (hp : piece.length ≤ chuncSize) (h : readPiece s piece = some (s', false))
    (hroom : s.length + chuncSize ≤ s.bufferSize) (pieces : List Text) :
    InBounds s (piece :: pieces) ↔ InBounds s' pieces := by
  have hiter : iterations s (piece :: pieces) = (s, piece) :: iterations s' pieces := by
    rw [iterations, h]
  have hloop : readLoop s (piece :: pieces) = readLoop s' pieces := by
    rw [readLoop, h]
    rfl
  constructor
  · rintro ⟨htop, hread, hend⟩
    rw [hiter] at htop hread
    exact ⟨fun r hr => htop r (List.mem_cons_of_mem _ hr), fun r hr => hread r (List.mem_cons_of_mem _ hr),
      fun s'' hs => hend s'' (hloop.trans hs)⟩
  · rintro ⟨htop, hread, hend⟩
    constructor
    · rw [hiter]
      rintro r hr
      rcases List.mem_cons.1 hr with rfl | hr
      · exact hroom
      · exact htop r hr
    · rw [hiter]
      rintro r hr i hi
      rcases List.mem_cons.1 hr with rfl | hr
      · show s.length + i < s.bufferSize
        have hi' : i < piece.length := hi
        omega
      · exact hread r hr i hi
    · intro s'' hs
      exact hend s'' (hloop.symm.trans hs)

/-- When it is the last one. -/
theorem inBounds_cons_of_true (hp : piece.length ≤ chuncSize) (h : readPiece s piece = some (s', true))
    (hroom : s.length + chuncSize ≤ s.bufferSize) (pieces : List Text) :
    InBounds s (piece :: pieces) ↔ s'.length < s'.bufferSize := by
  have hiter : iterations s (piece :: pieces) = [(s, piece)] := by
    rw [iterations, h]
  have hloop : readLoop s (piece :: pieces) = some s' := by
    rw [readLoop, h]
    rfl
  constructor
  · intro hb
    exact hb.terminate s' hloop
  · intro hlt
    constructor
    · rw [hiter]
      rintro r hr
      obtain rfl := List.mem_singleton.1 hr
      exact hroom
    · rw [hiter]
      rintro r hr i hi
      obtain rfl := List.mem_singleton.1 hr
      show s.length + i < s.bufferSize
      have hi' : i < piece.length := hi
      omega
    · intro s'' hs
      obtain rfl := Option.some.inj (hloop.symm.trans hs)
      exact hlt

theorem overruns_nil (leftover : Mem) (k : ℕ) : ¬ Overruns leftover k [] := by
  rintro ⟨ps, piece, qs, w, heq, -⟩
  cases ps <;> cases heq

theorem overruns_cons_of_notMem (hnul : nul ∉ searched leftover k piece) (pieces : List Text) :
    Overruns leftover k (piece :: pieces) ↔ Overruns leftover (k + 1) pieces := by
  have hshift : ∀ i, k + (i + 1) = k + 1 + i := fun i => by omega
  constructor
  · rintro ⟨ps, q, qs, w, heq, hpow, hbefore, hfound, hw⟩
    cases ps with
    | nil =>
      obtain ⟨rfl, rfl⟩ := List.cons.inj heq
      exact absurd (hfound ▸ List.mem_append_right w List.mem_cons_self) hnul
    | cons p ps =>
      obtain ⟨rfl, rfl⟩ := List.cons.inj heq
      rw [List.length_cons, hshift] at hpow hfound
      refine ⟨ps, q, qs, w, rfl, hpow, fun i hi => ?_, hfound, hw⟩
      rw [← hshift]
      exact hbefore (i + 1) (Nat.succ_lt_succ hi)
  · rintro ⟨ps, q, qs, w, rfl, hpow, hbefore, hfound, hw⟩
    refine ⟨piece :: ps, q, qs, w, rfl, ?_, ?_, ?_, hw⟩
    · rw [List.length_cons, hshift]
      exact hpow
    · rintro (_ | i) hi
      · exact hnul
      · rw [hshift]
        exact hbefore i (Nat.lt_of_succ_lt_succ hi)
    · rw [List.length_cons, hshift]
      exact hfound

theorem overruns_cons_of_mem {w v : Text} (hw : nul ∉ w) (hfound : searched leftover k piece = w ++ nul :: v)
    (pieces : List Text) : Overruns leftover k (piece :: pieces) ↔ (∃ j, k + 1 = 2 ^ j) ∧ v = [] := by
  constructor
  · rintro ⟨ps, q, qs, w', heq, hpow, hbefore, hfound', hw'⟩
    cases ps with
    | nil =>
      obtain ⟨rfl, rfl⟩ := List.cons.inj heq
      have happend : w' ++ nul :: [] = w ++ nul :: v := hfound'.symm.trans hfound
      exact ⟨hpow, ((List.append_cons_inj_of_notMem hw' List.not_mem_nil).1 happend).2.2.symm⟩
    | cons p ps =>
      obtain ⟨rfl, rfl⟩ := List.cons.inj heq
      have hno := hbefore 0 (Nat.succ_pos _)
      exact absurd (hfound ▸ List.mem_append_right w List.mem_cons_self) hno
  · rintro ⟨hpow, rfl⟩
    exact ⟨[], piece, pieces, w, rfl, hpow, fun i hi => absurd hi (Nat.not_lt_zero i), hfound, hw⟩

theorem Reading.At.loop_iff (h : s.At leftover k) (hp : ∀ piece ∈ pieces, piece.length ≤ chuncSize) :
    InBounds s pieces ↔ ¬ Overruns leftover k pieces := by
  induction pieces generalizing s k with
  | nil => exact iff_of_true (inBounds_nil h.room) (overruns_nil leftover k)
  | cons piece pieces ih =>
    have hlen := hp piece List.mem_cons_self
    by_cases hnul : nul ∈ searched leftover k piece
    · obtain ⟨w, v, hfound, hw⟩ := List.eq_append_cons_of_mem hnul
      rw [inBounds_cons_of_true hlen (h.stops hlen hw hfound) h.room, overruns_cons_of_mem hw hfound,
        ← h.room_eq_iff]
      have hroom := h.room
      have hv := List.length_eq_zero_iff (l := v)
      show s.length + chuncSize - v.length < s.bufferSize ↔ _
      rw [← hv]
      simp only [chuncSize] at hroom ⊢
      omega
    · obtain ⟨s', hs', hat⟩ := h.goes_on hlen hnul
      rw [inBounds_cons_of_false hlen hs' h.room, overruns_cons_of_notMem hnul]
      exact ih hat fun q hq => hp q (List.mem_cons_of_mem _ hq)

/-- **All bytes are written in the block** exactly if the first NUL that is found is not the last
    byte of the block. -/
theorem inBounds_iff (leftover : Mem) (pieces : List Text)
    (hp : ∀ piece ∈ pieces, 1 ≤ piece.length ∧ piece.length ≤ chuncSize) :
    InBounds (Reading.start leftover) pieces ↔ ¬ Overruns leftover 0 pieces :=
  (Reading.at_start leftover).loop_iff fun piece h => (hp piece h).2

/-- Of a full piece, all bytes are searched. -/
theorem searched_full (leftover : Mem) (k : ℕ) (hp : piece.length = chuncSize) : searched leftover k piece = piece := by
  rw [searched, chunk, hp, Nat.sub_self]
  exact List.append_nil piece

theorem inBounds_iff_sevens : InBounds (Reading.start leftoverSeven) [List.replicate 128 '7'] := by
  have hnul : nul ∉ searched leftoverSeven 0 (List.replicate 128 '7') := by
    rw [searched_full _ _ List.length_replicate]
    intro hmem
    exact absurd (List.eq_of_mem_replicate hmem) (by decide)
  refine (inBounds_iff leftoverSeven [List.replicate 128 '7'] (by simp)).2 fun h => ?_
  exact overruns_nil _ _ ((overruns_cons_of_notMem hnul []).1 h)

/-- A first piece of 128 bytes, of which the last one is its NUL. -/
theorem not_inBounds_full :
    (∃ s, readLoop (Reading.start leftoverSeven) [List.replicate 127 '7' ++ [nul]] = some s ∧
        s.length = 128 ∧ s.bufferSize = 128) ∧
      ¬ InBounds (Reading.start leftoverSeven) [List.replicate 127 '7' ++ [nul]] := by
  have hlen : (List.replicate 127 '7' ++ [nul]).length = chuncSize := by simp
  have hnul : nul ∉ List.replicate 127 '7' := fun hmem => absurd (List.eq_of_mem_replicate hmem) (by decide)
  have hfound := searched_full leftoverSeven 0 hlen
  have hstops := (Reading.at_start leftoverSeven).stops (Nat.le_of_eq hlen) hnul hfound
  refine ⟨⟨_, by rw [readLoop, hstops]; rfl, rfl, rfl⟩, fun h => ?_⟩
  have hlt := (inBounds_cons_of_true (Nat.le_of_eq hlen) hstops (Reading.at_start leftoverSeven).room []).1 h
  exact absurd hlt (Nat.lt_irrefl 128)

end Numbers.V9
