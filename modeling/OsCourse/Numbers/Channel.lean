/-
  `main` of p2 (idz os 1/9): the loop that reads the first channel into a growing block, and
  the loop that writes the answer to the second one.
-/
import OsCourse.Lib.Memory
import OsCourse.Numbers.Scanner

namespace Numbers.V9

open Text

/-- `CHUNC_SIZE` -/
abbrev chuncSize : ℕ := 128

/-! ## Reading -/

/-- The variables of the reading loop.  What `data` holds where nothing has been stored is
    what `malloc` and `realloc` leave in the block. -/
structure Reading where
  data : Mem
  bufferSize : ℕ
  length : ℕ

/-- The body of the loop for a `read` that returns `piece`, and whether it leaves the loop;
    `none` for an access outside of the block. -/
def readPiece (s : Reading) (piece : Text) : Option (Reading × Bool) :=
  let bytesRead := piece.length
  let data := s.data.store s.length piece
  let length := s.length + chuncSize
  if s.length + bytesRead ≤ s.bufferSize ∧ length ≤ s.bufferSize then
    match data.memchr nul (length - bytesRead) bytesRead with
    | some endlinePos => some ({ data := data, bufferSize := s.bufferSize, length := endlinePos + 1 }, true)
    | none =>
      let bufferSize := if length ≥ s.bufferSize - 1 then s.bufferSize * 2 else s.bufferSize
      some ({ data := data, bufferSize := bufferSize, length := length }, false)
  else none

/-- The loop over what `read` returns, up to the end of the file.  With nothing read the
    process exits. -/
def readLoop : Reading → List Text → Option Reading
  | s, [] => if s.length = 0 then none else some s
  | s, piece :: pieces => (readPiece s piece).bind fun r => if r.2 then some r.1 else readLoop r.1 pieces

/-- `data[length] = '\0'` -/
def terminate (s : Reading) : Option Reading :=
  if s.length < s.bufferSize then some { s with data := s.data.store s.length [nul] } else none

/-- What is read from a channel that delivers `pieces`; `leftover` is what the block holds
    before. -/
def receive (leftover : Mem) (pieces : List Text) : Option Reading :=
  (readLoop { data := leftover, bufferSize := chuncSize, length := 0 } pieces).bind terminate

/-- The string at `data` is what has been sent. -/
def Reads (leftover : Mem) (pieces : List Text) : Prop :=
  ∃ s, receive leftover pieces = some s ∧ s.data.StringAt 0 pieces.flatten

/-! ### The loop -/

/-- The next piece has room behind `length`. -/
structure Reading.Room (s : Reading) : Prop where
  length : chuncSize ∣ s.length
  bufferSize : chuncSize ∣ s.bufferSize
  room : s.length + chuncSize ≤ s.bufferSize

/-- A piece without a NUL among the bytes that are searched. -/
theorem Reading.Room.readPiece {s : Reading} (h : s.Room) {piece : Text} (hp : piece.length ≤ chuncSize)
    (hnul : nul ∉ (s.data.store s.length piece).load (s.length + chuncSize - piece.length) piece.length) :
    ∃ bufferSize, V9.readPiece s piece = some ({
        data := s.data.store s.length piece
        bufferSize := bufferSize
        length := s.length + chuncSize }, false) ∧
      Reading.Room ⟨s.data.store s.length piece, bufferSize, s.length + chuncSize⟩ := by
  obtain ⟨hlen, hsize, hroom⟩ := h
  refine ⟨if s.length + chuncSize ≥ s.bufferSize - 1 then s.bufferSize * 2 else s.bufferSize, ?_, ?_⟩
  · simp only [V9.readPiece]
    rw [if_pos ⟨by omega, hroom⟩, Mem.memchr_eq_none_iff.2 hnul]
  · refine ⟨Nat.dvd_add hlen (Nat.dvd_refl _), ?_, ?_⟩
    · show chuncSize ∣ if s.length + chuncSize ≥ s.bufferSize - 1 then s.bufferSize * 2 else s.bufferSize
      split_ifs
      · exact Nat.dvd_mul_right_of_dvd hsize 2
      · exact hsize
    · show s.length + chuncSize + chuncSize ≤
        if s.length + chuncSize ≥ s.bufferSize - 1 then s.bufferSize * 2 else s.bufferSize
      obtain ⟨k, hk⟩ := hlen
      obtain ⟨l, hl⟩ := hsize
      simp only [chuncSize] at *
      split_ifs <;> omega

/-- Full pieces: the stream is in the block, and `length` is its length. -/
theorem readLoop_full {pieces : List Text} : ∀ {s : Reading}, s.Room →
    (∀ piece ∈ pieces, piece.length = chuncSize) → nul ∉ pieces.flatten → pieces ≠ [] ∨ s.length ≠ 0 →
      ∃ s', readLoop s pieces = some s' ∧ s'.Room ∧ s'.length = s.length + pieces.flatten.length ∧
        s'.data.load 0 s'.length = s.data.load 0 s.length ++ pieces.flatten := by
  induction pieces with
  | nil =>
    intro s hs _ _ hne
    refine ⟨s, if_neg (hne.resolve_left (by simp)), hs, by simp, by simp⟩
  | cons piece pieces ih =>
    intro s hs hfull hnul _
    have hp : piece.length = chuncSize := hfull piece List.mem_cons_self
    rw [List.flatten_cons, List.mem_append, not_or] at hnul
    have hload : (s.data.store s.length piece).load (s.length + chuncSize - piece.length) piece.length = piece := by
      rw [hp, Nat.add_sub_cancel, ← hp]
      exact Mem.load_store _ _ _
    obtain ⟨bufferSize, heq, hroom⟩ := hs.readPiece (Nat.le_of_eq hp) (by rw [hload]; exact hnul.1)
    obtain ⟨s', hs', hroom', hlen, hdata⟩ := ih hroom (fun q hq => hfull q (List.mem_cons_of_mem _ hq)) hnul.2
      (Or.inr (by simp [chuncSize]))
    refine ⟨s', ?_, hroom', ?_, ?_⟩
    · rw [readLoop, heq, Option.bind_some]
      exact hs'
    · rw [hlen, List.flatten_cons, List.length_append, hp]
      exact Nat.add_assoc _ _ _
    · rw [hdata, ← hp, Mem.load_add, Mem.load_store_of_le (Nat.le_of_eq (Nat.zero_add _)), Nat.zero_add,
        Mem.load_store, List.flatten_cons, List.append_assoc]

/-- No NUL in the block: each piece takes a whole chunk. -/
theorem readLoop_noNul {pieces : List Text} : ∀ {s s' : Reading}, s.Room → (∀ i, s.data i ≠ nul) →
    (∀ piece ∈ pieces, piece.length ≤ chuncSize) → nul ∉ pieces.flatten → readLoop s pieces = some s' →
      s'.length = s.length + chuncSize * pieces.length ∧ ∀ i, s'.data i ≠ nul := by
  induction pieces with
  | nil =>
    intro s s' _ hdata _ _ hs'
    rw [readLoop] at hs'
    split_ifs at hs'
    cases hs'
    exact ⟨rfl, hdata⟩
  | cons piece pieces ih =>
    intro s s' hs hdata hle hnul hs'
    rw [List.flatten_cons, List.mem_append, not_or] at hnul
    have hstore : ∀ i, s.data.store s.length piece i ≠ nul := Mem.store_ne hdata hnul.1
    obtain ⟨bufferSize, heq, hroom⟩ := hs.readPiece (hle piece List.mem_cons_self) (Mem.notMem_load hstore)
    rw [readLoop, heq, Option.bind_some] at hs'
    obtain ⟨hlen, hdata'⟩ := ih hroom hstore (fun q hq => hle q (List.mem_cons_of_mem _ hq)) hnul.2 hs'
    refine ⟨?_, hdata'⟩
    rw [hlen, List.length_cons]
    simp only [chuncSize]
    omega

theorem room_initial (leftover : Mem) : Reading.Room { data := leftover, bufferSize := chuncSize, length := 0 } :=
  ⟨Nat.dvd_zero _, Nat.dvd_refl _, Nat.le_of_eq (Nat.zero_add _)⟩

theorem full_of_le_length {pieces : List Text} (hle : ∀ piece ∈ pieces, piece.length ≤ chuncSize)
    (h : chuncSize * pieces.length ≤ pieces.flatten.length) : ∀ piece ∈ pieces, piece.length = chuncSize := by
  have hbound : ∀ l : List Text, (∀ piece ∈ l, piece.length ≤ chuncSize) → l.flatten.length ≤ chuncSize * l.length := by
    intro l
    induction l with
    | nil => simp
    | cons piece l ih =>
      intro hl
      have h1 := hl piece List.mem_cons_self
      have h2 := ih fun q hq => hl q (List.mem_cons_of_mem _ hq)
      rw [List.flatten_cons, List.length_append, List.length_cons]
      simp only [chuncSize] at *
      omega
  induction pieces with
  | nil => simp
  | cons piece pieces ih =>
    have h1 := hle piece List.mem_cons_self
    have hle' : ∀ q ∈ pieces, q.length ≤ chuncSize := fun q hq => hle q (List.mem_cons_of_mem _ hq)
    have h2 := hbound pieces hle'
    rw [List.flatten_cons, List.length_append, List.length_cons] at h
    simp only [chuncSize] at *
    rintro q (_ | hq)
    · omega
    · exact ih hle' (by omega) q (by assumption)

/-- A stream in full pieces comes into the block, with its NUL behind it. -/
theorem receive_full (leftover : Mem) {pieces : List Text} (hne : pieces ≠ [])
    (hfull : ∀ piece ∈ pieces, piece.length = chuncSize) (hnul : nul ∉ pieces.flatten) :
    ∃ s, receive leftover pieces = some s ∧ s.length = pieces.flatten.length ∧ s.length < s.bufferSize ∧
      s.data.StringAt 0 pieces.flatten := by
  obtain ⟨s, hloop, hroom, hlen, hload⟩ := readLoop_full (room_initial leftover) hfull hnul (Or.inl hne)
  rw [Nat.zero_add] at hlen
  have hlt : s.length < s.bufferSize := by
    have := hroom.room
    simp only [chuncSize] at this
    omega
  refine ⟨{ s with data := s.data.store s.length [nul] }, ?_, hlen, hlt, ?_⟩
  · rw [receive, hloop, Option.bind_some]
    exact if_pos hlt
  · show (s.data.store s.length [nul]).StringAt 0 pieces.flatten
    rw [hlen] at hload ⊢
    rw [← Nat.zero_add pieces.flatten.length]
    exact Mem.stringAt_store hnul hload

/-- **The stream is read** whatever the block held before exactly if all pieces are full:
    a shorter piece moves `length` behind bytes that nobody has stored. -/
theorem reads_iff (pieces : List Text) (hne : pieces ≠ [])
    (hsize : ∀ piece ∈ pieces, 1 ≤ piece.length ∧ piece.length ≤ chuncSize) (hnul : nul ∉ pieces.flatten) :
    (∀ leftover, Reads leftover pieces) ↔ ∀ piece ∈ pieces, piece.length = chuncSize := by
  have hle : ∀ piece ∈ pieces, piece.length ≤ chuncSize := fun piece hp => (hsize piece hp).2
  constructor
  · intro h
    obtain ⟨s, hs, hstring⟩ := h fun _ => '7'
    obtain ⟨s₁, hloop, hterm⟩ := Option.bind_eq_some_iff.1 hs
    have hseven : ∀ i : ℕ, (fun _ => '7' : Mem) i ≠ nul := fun _ => show '7' ≠ nul by decide
    obtain ⟨hlen, hdata⟩ := readLoop_noNul (room_initial _) hseven hle hnul hloop
    refine full_of_le_length hle (Nat.le_of_not_lt fun hlt => ?_)
    -- the string goes on behind the stream
    rw [terminate] at hterm
    split_ifs at hterm
    cases hterm
    have hend : s₁.data.store s₁.length [nul] (0 + pieces.flatten.length) = nul := hstring.nul
    rw [Mem.store_of_lt (by rw [hlen]; omega)] at hend
    exact hdata _ hend
  · intro hfull leftover
    obtain ⟨s, hs, -, -, hstring⟩ := receive_full leftover hne hfull hnul
    exact ⟨s, hs, hstring⟩

/-- The block holds a 7 behind the first byte, and a NUL behind that. -/
def leftoverSeven : Mem := fun i => if i = 2 then nul else '7'

/-- The file with the one byte 5 is read as 57. -/
theorem not_reads : (∃ s, receive leftoverSeven [['5']] = some s ∧ s.data.StringAt 0 ['5', '7']) ∧
    ¬ Reads leftoverSeven [['5']] := by
  have hany : (receive leftoverSeven [['5']]).any (fun s => s.data.StringAt 0 ['5', '7']) = true := by decide +kernel
  obtain ⟨s, hs, hstring⟩ := (Option.any_eq_true _ _).1 hany
  have hstring : s.data.StringAt 0 ['5', '7'] := by simpa using hstring
  refine ⟨⟨s, hs, hstring⟩, ?_⟩
  rintro ⟨s', hs', hfive⟩
  obtain rfl : s = s' := Option.some.inj (hs.symm.trans hs')
  exact absurd (hstring.unique hfive) (by decide)

theorem reads_iff_full : Reads leftoverSeven [List.replicate 128 '5'] :=
  (reads_iff [List.replicate 128 '5'] (by simp) (by simp) (by simp; decide)).2 (by simp) leftoverSeven

/-! ## Writing -/

/-- A call of `write(write_fd, ans + offset, bytes_to_write)`, and what it returns. -/
structure Write where
  offset : ℕ
  bytesToWrite : ℕ
  bytesWritten : ℕ
  deriving DecidableEq

/-- The loop from `offset` on, for at most `fuel` calls.  A call that is given `count` bytes
    writes one of them at least; `written offset` says how many it would write, if it was
    given so many. -/
def writeLoop (length : ℕ) (written : ℕ → ℕ) : ℕ → ℕ → List Write
  | 0, _ => []
  | fuel + 1, offset =>
    if offset < length then
      let bytesToWrite := if length - offset > chuncSize then chuncSize else length - offset
      let bytesWritten := max 1 (min bytesToWrite (written offset))
      { offset := offset, bytesToWrite := bytesToWrite, bytesWritten := bytesWritten } ::
        writeLoop length written fuel (offset + bytesWritten)
    else []

/-- The calls of the loop; each moves `offset` on, so that there are at most `length`. -/
def writes (length : ℕ) (written : ℕ → ℕ) : List Write := writeLoop length written length 0

/-- What the calls put on the channel. -/
def sent (ans : Mem) (calls : List Write) : Text := calls.flatMap fun c => ans.load c.offset c.bytesWritten

/-- What p2 has when it comes to the writing loop: `length`, and the answer to what it has
    read. -/
def process (atoi : Atoi) (usable : ℕ → ℕ) (leftover : Mem) (pieces : List Text) : Option (ℕ × Text) :=
  (receive leftover pieces).bind fun s =>
    (findAllNumbers atoi (s.data.load 0 s.bufferSize)).bind fun arr =>
      (makeStringFromArray usable arr).map fun ans => (s.length, ans)

/-- The other side gets the answer when it cuts what is sent at the first NUL, and no call
    is given a byte behind the NUL of the answer. -/
def Delivers (length : ℕ) (ans : Mem) (written : ℕ → ℕ) (answer : Text) : Prop :=
  cstr (sent ans (writes length written)) = answer ∧
    ∀ c ∈ writes length written, c.offset + c.bytesToWrite ≤ answer.length + 1

/-! ### The loop -/

variable {length : ℕ} {written : ℕ → ℕ} {ans : Mem} {text : Text}

/-- A call is given bytes up to `length`, and writes some of them. -/
theorem writeLoop_of_lt (written : ℕ → ℕ) (fuel : ℕ) {offset : ℕ} (h : offset < length) : ∃ count n, 1 ≤ n ∧ n ≤ count ∧
    offset + count ≤ length ∧ writeLoop length written (fuel + 1) offset =
      { offset := offset, bytesToWrite := count, bytesWritten := n } :: writeLoop length written fuel (offset + n) := by
  refine ⟨if length - offset > chuncSize then chuncSize else length - offset, _, ?_, ?_, ?_, if_pos h⟩
  · exact Nat.le_max_left 1 _
  · refine Nat.max_le.2 ⟨?_, Nat.min_le_left _ _⟩
    simp only [chuncSize]
    split_ifs <;> omega
  · split_ifs <;> omega

/-- However many bytes the calls write, they write all `length`. -/
theorem sent_writeLoop (fuel : ℕ) : ∀ offset, length ≤ offset + fuel →
    sent ans (writeLoop length written fuel offset) = ans.load offset (length - offset) := by
  induction fuel with
  | zero =>
    intro offset h
    rw [Nat.sub_eq_zero_of_le (Nat.add_zero offset ▸ h)]
    rfl
  | succ fuel ih =>
    intro offset h
    by_cases hlt : offset < length
    · obtain ⟨count, n, hpos, hn, hcount, heq⟩ := writeLoop_of_lt written fuel hlt
      have hsplit : length - offset = n + (length - (offset + n)) := by omega
      rw [heq, hsplit, Mem.load_add, ← ih (offset + n) (by omega)]
      rfl
    · rw [writeLoop, if_neg hlt, Nat.sub_eq_zero_of_le (Nat.le_of_not_lt hlt)]
      rfl

/-- The bytes that the calls are given end at `length`. -/
theorem reach_writeLoop (written : ℕ → ℕ) (fuel : ℕ) : ∀ offset, length ≤ offset + fuel →
    (∀ c ∈ writeLoop length written fuel offset, c.offset + c.bytesToWrite ≤ length) ∧
      (offset < length → ∃ c ∈ writeLoop length written fuel offset, c.offset + c.bytesToWrite = length) := by
  induction fuel with
  | zero =>
    intro offset h
    exact ⟨fun c hc => (by cases hc), fun hlt => absurd h (Nat.not_le_of_lt hlt)⟩
  | succ fuel ih =>
    intro offset h
    by_cases hlt : offset < length
    · obtain ⟨count, n, hpos, hn, hcount, heq⟩ := writeLoop_of_lt written fuel hlt
      obtain ⟨hle, hlast⟩ := ih (offset + n) (by omega)
      rw [heq]
      constructor
      · intro c hc
        rcases List.mem_cons.1 hc with rfl | hc
        · exact hcount
        · exact hle c hc
      · intro _
        by_cases hmore : offset + n < length
        · obtain ⟨c, hc, hend⟩ := hlast hmore
          exact ⟨c, List.mem_cons_of_mem _ hc, hend⟩
        · exact ⟨_, List.mem_cons_self, show offset + count = length by omega⟩
    · rw [writeLoop, if_neg hlt]
      exact ⟨fun c hc => (by cases hc), fun h => absurd h hlt⟩

theorem sent_writes (ans : Mem) (length : ℕ) (written : ℕ → ℕ) : sent ans (writes length written) = ans.load 0 length :=
  sent_writeLoop length 0 (Nat.le_of_eq (Nat.zero_add length).symm)

/-- **The answer is delivered** exactly if it is as long as the input was read, with or
    without its NUL. -/
theorem delivers_iff {length : ℕ} {text : Text} {ans : Mem} (hans : ans.StringAt 0 text) (written : ℕ → ℕ) :
    Delivers length ans written text ↔ length = text.length ∨ length = text.length + 1 := by
  obtain ⟨hle, hlast⟩ := reach_writeLoop written length 0 (Nat.le_of_eq (Nat.zero_add length).symm)
  rw [Delivers, sent_writes, hans.cstr_load]
  constructor
  · rintro ⟨hsent, hreach⟩
    have hshort : text.length ≤ length := by
      rw [← hsent]
      exact List.length_take_le _ _
    by_cases h0 : 0 < length
    · obtain ⟨c, hc, hend⟩ := hlast h0
      have := hreach c hc
      omega
    · omega
  · intro h
    refine ⟨List.take_of_length_le (by omega), fun c hc => ?_⟩
    have := hle c hc
    omega

/-- **Full pieces are processed** to the answer for the numbers of the stream, and `length` is
    the length of the stream. -/
theorem process_full (atoi : Atoi) (usable : ℕ → ℕ) (leftover : Mem) {pieces : List Text} (hne : pieces ≠ [])
    (hfull : ∀ piece ∈ pieces, piece.length = chuncSize) (hnul : nul ∉ pieces.flatten) :
    process atoi usable leftover pieces =
      (makeStringFromArray usable ((runs pieces.flatten).map atoi.run)).map
        fun ans => (pieces.flatten.length, ans) := by
  obtain ⟨s, hs, hlen, hlt, hstring⟩ := receive_full leftover hne hfull hnul
  have hcstr : cstr (s.data.load 0 s.bufferSize) = pieces.flatten := by
    rw [hstring.cstr_load, List.take_of_length_le (by omega)]
  have hmem : nul ∈ s.data.load 0 s.bufferSize := by
    have hget := Mem.getElem?_load (m := s.data) (a := 0) (hlen ▸ hlt : pieces.flatten.length < s.bufferSize)
    rw [hstring.nul] at hget
    exact List.mem_of_getElem? hget
  rw [process, hs, Option.bind_some, findAllNumbers_eq hmem, hcstr, Option.bind_some, hlen]

/-- The answer to a full piece with many sevens. -/
theorem process_sevens (piece : Text) {n : ℕ} (hlen : piece.length = 128) (hnul : nul ∉ piece)
    (hruns : runs piece = List.replicate n ['7']) (hn : 9 ≤ n) (leftover : Mem) :
    process .ofStrtol id leftover [piece] = some (128, answer (List.replicate n 7)) := by
  have hseven : strtol ['7'] = 7 := by decide
  have harr : ∀ a ∈ List.replicate n (7 : ℤ), (fmtInt a).length < maxNumberLength := by
    intro a ha
    obtain rfl := List.eq_of_mem_replicate ha
    decide
  have hfits := (answer_fits_iff harr).2 (Or.inl (by rwa [List.length_replicate]))
  rw [process_full _ _ _ (List.cons_ne_nil _ _) (by simpa using hlen) (by simpa using hnul), List.flatten_singleton,
    hruns, List.map_replicate]
  show (makeStringFromArray id (List.replicate n (strtol ['7']))).map _ = _
  rw [hseven, makeStringFromArray_eq id harr, id, if_pos hfits, hlen]
  rfl

/-- 36 numbers and blanks: the answer has 128 characters. -/
def thirtySix : Text := (List.replicate 36 ['7', ' ']).flatten ++ List.replicate 56 ' '

theorem delivers_iff_thirtySix : ∃ text ans, process .ofStrtol id (fun _ => ' ') [thirtySix] = some (128, text) ∧
    ans.StringAt 0 text ∧ Delivers 128 ans (fun _ => 100) text := by
  have hp := process_sevens thirtySix (n := 36) (by decide +kernel) (by decide +kernel)
    (by decide +kernel) (by decide) fun _ => ' '
  have hlen : (answer (List.replicate 36 7)).length = 128 := by decide +kernel
  have hans := Mem.stringAt_store (nul_notMem_answer (List.replicate 36 7))
    (Mem.load_store (fun _ => ' ') 0 (answer (List.replicate 36 7)))
  exact ⟨_, _, hp, hans, (delivers_iff hans _).2 (Or.inl hlen.symm)⟩

/-- 64 numbers: the answer has 212 characters. -/
def dense : Text := (List.replicate 64 ['7', ' ']).flatten

/-- Of the answer to 64 numbers, 128 characters are sent. -/
theorem not_delivers : ∃ text, process .ofStrtol id (fun _ => ' ') [dense] = some (128, text) ∧
    ∀ (ans : Mem) (written : ℕ → ℕ), ans.StringAt 0 text → cstr (sent ans (writes 128 written)) = text.take 128 ∧
      ¬ Delivers 128 ans written text := by
  have hlen : (answer (List.replicate 64 7)).length = 212 := by decide +kernel
  refine ⟨_, process_sevens dense (n := 64) (by decide +kernel) (by decide +kernel) (by decide +kernel) (by decide) _,
    fun ans written hans => ?_⟩
  have hsent : cstr (sent ans (writes 128 written)) = (answer (List.replicate 64 7)).take 128 := by
    rw [sent_writes, hans.cstr_load]
  refine ⟨hsent, fun h => ?_⟩
  have := congrArg List.length (hsent.symm.trans h.1)
  rw [List.length_take, hlen] at this
  exact absurd this (by decide)

end Numbers.V9
