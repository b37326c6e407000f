/-
  The letter counter (IDZ3), input: the blocks that are allocated for a file, and the bytes that
  are written while it is read.
-/
import OsCourse.Assembly.IoHandler

namespace Letters

open Riscv While

/-! ## What reading a file is for -/

/-- The byte is in the block. -/
def Block.Contains (b : Block) (a : Word) : Prop := (a - b.base).toNat < b.size

/-- `read_string_from_file` returns the text with a NUL behind it, and writes into blocks of its
    own. -/
def ReadsText (fuel : ℕ) (s : Machine) : Prop :=
  ∃ s' blocks written, readStringFromFile fuel s = some (s.brk, BitVec.ofNat 32 (text s.file).length, s') ∧
    Spells s'.mem s.brk (text s.file ++ [0]) ∧
    s'.blocks = s.blocks ++ blocks ∧ s'.written = s.written ++ written ∧
    ∀ a ∈ written, ∃ b ∈ blocks, b.Contains a

/-- The byte behind the text is zero before, and there is another one behind it in the last
    block. -/
structure Fits (s : Machine) : Prop where
  zero : s.mem (byteAt s.brk (text s.file).length) = 0
  short : (text s.file).length < maxTextSize
  room : (text s.file).length % textSize ≠ textSize - 1

/-! ## Blocks next to each other -/

variable {s : Machine} {r : ReadRegs} {base a : Word} {i j k n fuel : ℕ}

/-- `k` blocks from an address on. -/
def blocksAt (base : Word) (k : ℕ) : List Block :=
  (List.range k).map fun i => ⟨byteAt base (textSize * i), textSize⟩

/-- The first `n` bytes from an address on. -/
def bytesAt (base : Word) (n : ℕ) : List Word := (List.range n).map (byteAt base)

theorem blocksAt_succ (base : Word) (k : ℕ) :
    blocksAt base (k + 1) = blocksAt base k ++ [⟨byteAt base (textSize * k), textSize⟩] := by
  rw [blocksAt, List.range_succ, List.map_append]
  rfl

theorem bytesAt_add (base : Word) (n k : ℕ) : bytesAt base (n + k) = bytesAt base n ++ bytesAt (byteAt base n) k := by
  rw [bytesAt, List.range_add, List.map_append, List.map_map, bytesAt, bytesAt]
  refine congrArg _ (List.map_congr_left fun j _ => ?_)
  exact (byteAt_add base n j).symm

/-- The bytes of `k` blocks. -/
theorem contains_blocksAt (hk : k ≤ 20) (hj : j ≤ 10241) (base : Word) :
    (∃ b ∈ blocksAt base k, b.Contains (byteAt base j)) ↔ j < textSize * k := by
  have hsub : ∀ i, i < k → (byteAt base j - byteAt base (textSize * i)).toNat =
      (2 ^ 32 + j - textSize * i) % 2 ^ 32 := by
    intro i hi
    refine toNat_byteAt_sub_byteAt ?_ (by omega) base
    simp only [textSize]
    omega
  constructor
  · rintro ⟨b, hb, hlt⟩
    obtain ⟨i, hi, rfl⟩ := List.mem_map.1 hb
    have hi' := List.mem_range.1 hi
    rw [Block.Contains, hsub i hi'] at hlt
    simp only [textSize] at hlt ⊢
    omega
  · intro hlt
    have hi : j / textSize < k := by
      simp only [textSize] at hlt ⊢
      omega
    refine ⟨_, List.mem_map.2 ⟨j / textSize, List.mem_range.2 hi, rfl⟩, ?_⟩
    rw [Block.Contains, hsub _ hi]
    simp only [textSize]
    omega

/-- The first `n` bytes and the one after the next. -/
theorem forall_contains_iff (hk : k ≤ 20) (hn : n ≤ 10240) (hle : n ≤ textSize * k) (base : Word) :
    (∀ a ∈ bytesAt base n ++ [byteAt base (n + 1)], ∃ b ∈ blocksAt base k, b.Contains a) ↔ n + 1 < textSize * k := by
  constructor
  · intro h
    exact (contains_blocksAt hk (by omega) base).1 (h _ (List.mem_append_right _ (List.mem_singleton_self _)))
  · intro hlt a ha
    rcases List.mem_append.1 ha with ha | ha
    · obtain ⟨j, hj, rfl⟩ := List.mem_map.1 ha
      have hj' := List.mem_range.1 hj
      exact (contains_blocksAt hk (by omega) base).2 (Nat.lt_of_lt_of_le hj' hle)
    · obtain rfl := List.mem_singleton.1 ha
      exact (contains_blocksAt hk (by omega) base).2 hlt

/-! ## The loop -/

/-- Before round `i`. -/
structure Tracked (s : Machine) (i : ℕ) (r : ReadRegs) : Prop extends Reading s i r where
  blocks : r.machine.blocks = s.blocks ++ blocksAt s.brk (i + 1)
  written : r.machine.written = s.written ++ bytesAt s.brk (textSize * i)

/-- When the file has been read in round `i`. -/
structure HasTracked (s : Machine) (i : ℕ) (r : Word × Machine) : Prop extends HasRead s r where
  lt : i < 20
  length_le : textSize * i ≤ s.file.length
  last : i = 19 ∨ s.file.length < textSize * (i + 1)
  blocks : r.2.blocks = s.blocks ++ blocksAt s.brk (i + 1)
  written : r.2.written = s.written ++ bytesAt s.brk (text s.file).length

theorem Tracked.start (s : Machine) :
    Tracked s 0 { s5 := s.brk, s6 := 0, machine := (s.allocate textSize).2 } := by
  refine ⟨Reading.start s, ?_, ?_⟩
  · rw [blocksAt_succ, Nat.mul_zero, byteAt_zero]
    rfl
  · rw [Nat.mul_zero, bytesAt, List.range_zero, List.map_nil, List.append_nil, Machine.allocate]

/-- What the system call writes. -/
theorem Tracked.written_read (h : Tracked s i r) : (r.machine.read r.s5 textSize).2.written =
    s.written ++ bytesAt s.brk (min (textSize * (i + 1)) s.file.length) := by
  have hle := h.length_le
  have hsum : textSize * i + ((s.file.drop (textSize * i)).take textSize).length =
      min (textSize * (i + 1)) s.file.length := by
    rw [List.length_take, List.length_drop, Nat.mul_succ]
    omega
  rw [← hsum, bytesAt_add, ← List.append_assoc, ← h.written, ← h.s5, ← h.file]
  rfl

theorem Tracked.round (h : Tracked s i r) (hi : i < 20) :
    (∃ b, readLoop r = .inr (some b) ∧ HasTracked s i b) ∨
    ∃ r', readLoop r = .inl r' ∧ i + 1 < 20 ∧ Tracked s (i + 1) r' := by
  have hwritten := h.written_read
  rcases readLoop_cases h.toReading hi with ⟨hround, hend⟩ | ⟨r', hround, hi', hr', hmachine⟩
  · refine .inl ⟨_, hround, h.toReading.last hi hend, hi, h.length_le, hend, h.blocks, ?_⟩
    rw [hwritten, text, List.length_take]
    refine congrArg (fun n => s.written ++ bytesAt s.brk n) ?_
    simp only [textSize, maxTextSize] at hend ⊢
    omega
  · refine .inr ⟨r', hround, hi', hr', ?_, ?_⟩
    · rw [hmachine, blocksAt_succ, ← List.append_assoc, ← h.blocks, ← h.brk]
      rfl
    · rw [hmachine]
      show (r.machine.read r.s5 textSize).2.written = _
      rw [hwritten, Nat.min_eq_left hr'.length_le]

/-- **The blocks and the bytes** at the end. -/
theorem readStringFromFile_blocks (hfuel : 20 ≤ fuel) (s : Machine) :
    ∃ i s6 s', HasTracked s i (s6, s') ∧
      readStringFromFile fuel s = some (s.brk, s6, s'.store (s.brk + s6 + 1) 0) := by
  have hloop : ∃ b, run readLoop fuel { s5 := s.brk, s6 := 0, machine := (s.allocate textSize).2 } = some b ∧
      ∃ i c, b = some c ∧ HasTracked s i c := by
    refine run_of_counter (i := 0) (n := 20) (J := Tracked s) ?_ (.start s) (by omega) (by omega)
    intro i r hi hr
    rcases hr.round hi with ⟨c, hround, hc⟩ | hnext
    · exact .inl ⟨some c, hround, i, c, rfl, hc⟩
    · exact .inr hnext
  obtain ⟨-, hrun, i, ⟨s6, s'⟩, rfl, hs⟩ := hloop
  exact ⟨i, s6, s', hs, readStringFromFile_eq hrun⟩

/-- The text ends in the last block, and leaves one more byte of it exactly if it is short. -/
theorem HasTracked.room_iff {c : Word × Machine} (h : HasTracked s i c) :
    (text s.file).length ≤ textSize * (i + 1) ∧
      ((text s.file).length + 1 < textSize * (i + 1) ↔
        (text s.file).length < maxTextSize ∧ (text s.file).length % textSize ≠ textSize - 1) := by
  have hmin : (text s.file).length = min maxTextSize s.file.length := List.length_take
  have hle := h.length_le
  have hlast := h.last
  have hlt := h.lt
  simp only [textSize, maxTextSize] at hmin hle hlast ⊢
  omega

/-- The zero is not stored into the text, nor into the byte behind it. -/
theorem HasTracked.mem_store {c : Word × Machine} (h : HasTracked s i c) (hj : j ≤ (text s.file).length) :
    (c.2.store (byteAt s.brk ((text s.file).length + 1)) 0).mem (byteAt s.brk j) =
      storeBytes s.mem s.brk (text s.file) (byteAt s.brk j) := by
  rw [← h.mem]
  refine if_neg fun heq => ?_
  have hlen : (text s.file).length ≤ 10240 := length_text_le s.file
  have hend : j = (text s.file).length + 1 := (byteAt_inj (by omega) (by omega)).1 heq
  omega

theorem HasTracked.spells_iff {c : Word × Machine} (h : HasTracked s i c) :
    Spells (c.2.store (byteAt s.brk ((text s.file).length + 1)) 0).mem s.brk (text s.file ++ [0]) ↔
      s.mem (byteAt s.brk (text s.file).length) = 0 := by
  have hlen : (text s.file).length ≤ 10240 := length_text_le s.file
  have htext : Spells (c.2.store (byteAt s.brk ((text s.file).length + 1)) 0).mem s.brk (text s.file) := by
    intro j hj
    rw [h.mem_store (Nat.le_of_lt hj)]
    exact spells_storeBytes (by omega) s.mem s.brk j hj
  rw [spells_append, spells_cons, h.mem_store (Nat.le_refl _),
    storeBytes_of_le (Nat.le_of_eq (toNat_byteAt_sub (by omega) s.brk).symm)]
  exact ⟨fun hs => hs.2.1, fun hz => ⟨htext, hz, spells_nil _ _⟩⟩

/-- The byte behind the text is not written at all. -/
theorem notMem_bytesAt (hn : n ≤ 10240) (base : Word) : byteAt base n ∉ bytesAt base n ++ [byteAt base (n + 1)] := by
  intro hmem
  rcases List.mem_append.1 hmem with hmem | hmem
  · obtain ⟨j, hj, heq⟩ := List.mem_map.1 hmem
    have hlt := List.mem_range.1 hj
    have hjn : j = n := (byteAt_inj (by omega) (by omega)).1 heq
    exact absurd hlt (Nat.not_lt.2 (Nat.le_of_eq hjn.symm))
  · have hnn : n = n + 1 := (byteAt_inj (by omega) (by omega)).1 (List.mem_singleton.1 hmem)
    exact absurd hnn (Nat.ne_of_lt (Nat.lt_succ_self n))

/-- **What `read_string_from_file` leaves**, and when it is what it should be. -/
theorem readStringFromFile_result (hfuel : 20 ≤ fuel) (s : Machine) : ∃ s' blocks written,
    readStringFromFile fuel s = some (s.brk, BitVec.ofNat 32 (text s.file).length, s') ∧
      s'.blocks = s.blocks ++ blocks ∧ s'.written = s.written ++ written ∧
      byteAt s.brk (text s.file).length ∉ written ∧
      (Spells s'.mem s.brk (text s.file ++ [0]) ↔ s.mem (byteAt s.brk (text s.file).length) = 0) ∧
      ((∀ a ∈ written, ∃ b ∈ blocks, b.Contains a) ↔
        (text s.file).length < maxTextSize ∧ (text s.file).length % textSize ≠ textSize - 1) := by
  obtain ⟨i, s6, s', hs, heq⟩ := readStringFromFile_blocks hfuel s
  obtain ⟨hle, hroom⟩ := hs.room_iff
  have hlen : (text s.file).length ≤ 10240 := length_text_le s.file
  have hsize : s6 = BitVec.ofNat 32 (text s.file).length := hs.size
  have hend : s.brk + s6 + 1 = byteAt s.brk ((text s.file).length + 1) := by
    rw [hsize, ← byteAt_succ]
    rfl
  have hwritten : (s'.store (byteAt s.brk ((text s.file).length + 1)) 0).written =
      s.written ++ (bytesAt s.brk (text s.file).length ++ [byteAt s.brk ((text s.file).length + 1)]) := by
    rw [← List.append_assoc, ← hs.written]
    rfl
  rw [hend, hsize] at heq
  exact ⟨_, _, _, heq, hs.blocks, hwritten, notMem_bytesAt hlen s.brk, hs.spells_iff,
    (forall_contains_iff hs.lt hlen hle s.brk).trans hroom⟩

theorem ReadsText.fits (hfuel : 20 ≤ fuel) (h : ReadsText fuel s) : Fits s := by
  obtain ⟨s', blocks, written, heq, hblocks, hwritten, -, hspells, hinside⟩ := readStringFromFile_result hfuel s
  obtain ⟨s'', blocks', written', heq', hs, hb, hw, hin⟩ := h
  obtain rfl : s' = s'' := by
    have hsome := Option.some.inj (heq.symm.trans heq')
    exact (Prod.mk.inj (Prod.mk.inj hsome).2).2
  obtain rfl := List.append_cancel_left (hblocks.symm.trans hb)
  obtain rfl := List.append_cancel_left (hwritten.symm.trans hw)
  obtain ⟨hshort, hroom⟩ := hinside.1 hin
  exact ⟨hspells.1 hs, hshort, hroom⟩

/-- **The text is read into blocks of its own, with its NUL,** exactly if it fits. -/
theorem readsText_iff_fits (hfuel : 20 ≤ fuel) (s : Machine) : ReadsText fuel s ↔ Fits s := by
  constructor
  · intro h
    exact h.fits hfuel
  · rintro ⟨hzero, hshort, hroom⟩
    obtain ⟨s', blocks, written, heq, hblocks, hwritten, -, hspells, hinside⟩ := readStringFromFile_result hfuel s
    exact ⟨s', blocks, written, heq, hspells.2 hzero, hblocks, hwritten, hinside.2 ⟨hshort, hroom⟩⟩

/-- A machine with an empty heap, and memory that is zero. -/
def Machine.ofFile (file : List Byte) : Machine :=
  { mem := fun _ => 0, brk := 0x10040000, file := file, blocks := [], written := [] }

theorem readsText_iff_fits_abc : ReadsText 20 (Machine.ofFile [97, 98, 99]) :=
  (readsText_iff_fits (Nat.le_refl 20) _).2 ⟨rfl, by decide, by decide⟩

/-- A file of 511 bytes, and one of 10240. -/
theorem not_readsText :
    ¬ ReadsText 20 (Machine.ofFile (List.replicate 511 97)) ∧
      ¬ ReadsText 20 (Machine.ofFile (List.replicate 10240 97)) := by
  have hlen : ∀ n, n ≤ 10240 → (text (Machine.ofFile (List.replicate n 97)).file).length = n := by
    intro n hn
    rw [text, Machine.ofFile, List.length_take, List.length_replicate]
    exact Nat.min_eq_right hn
  constructor
  · intro h
    have hroom := (h.fits (Nat.le_refl 20)).room
    rw [hlen 511 (by decide)] at hroom
    exact hroom rfl
  · intro h
    have hshort := (h.fits (Nat.le_refl 20)).short
    rw [hlen 10240 (Nat.le_refl _)] at hshort
    exact absurd hshort (Nat.lt_irrefl _)

end Letters
