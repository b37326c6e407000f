/-
  The letter counter (IDZ3), input: a file is read into memory, one block after the other.
-/
import OsCourse.Lib.Riscv
import OsCourse.Lib.While

namespace Letters

open Riscv While

/-! ## The machine -/

/-- A block of memory that `sbrk` has given out. -/
structure Block where
  base : Word
  size : ℕ

/-- The memory, the end of the heap, what has not yet been read of the open file, and a record
    of the blocks that were given out and of the bytes that were written. -/
structure Machine where
  mem : Ram
  brk : Word
  file : List Byte
  blocks : List Block
  written : List Word

namespace Machine

/-- `sb` -/
def store (s : Machine) (a v : Word) : Machine :=
  { s with mem := sb s.mem a v, written := s.written ++ [a] }

/-- System call 9, `allocate`: blocks are next to each other, at multiples of a word. -/
def allocate (s : Machine) (size : ℕ) : Word × Machine :=
  (s.brk, { s with brk := byteAt s.brk ((size + 3) / 4 * 4), blocks := s.blocks ++ [⟨s.brk, size⟩] })

/-- System call 63, `read_addr_reg`: the next bytes of the file, `size` at most. -/
def read (s : Machine) (reg : Word) (size : ℕ) : Word × Machine :=
  let bytes := s.file.take size
  (BitVec.ofNat 32 bytes.length,
    { s with
      mem := storeBytes s.mem reg bytes
      file := s.file.drop size
      written := s.written ++ (List.range bytes.length).map (byteAt reg) })

end Machine

/-! ## `read_string_from_file` -/

def textSize : ℕ := 512
def maxTextSize : ℕ := 10240

/-- The registers of `read_loop`. -/
structure ReadRegs where
  s5 : Word
  s6 : Word
  machine : Machine

/-- A round of `read_loop`, which is left at `er_read` with `none`. -/
def readLoop (r : ReadRegs) : ReadRegs ⊕ Option (Word × Machine) :=
  let (a0, s) := r.machine.read r.s5 textSize
  if a0 = -1 then .inr none
  else
    let s2 := a0
    let s6 := r.s6 + s2
    if (BitVec.ofNat 32 maxTextSize).sle s6 then .inr (some (s6, s))
    else if s2 ≠ BitVec.ofNat 32 textSize then .inr (some (s6, s))
    else
      let (_, s) := s.allocate textSize
      let s5 := r.s5 + s2
      .inl { s5 := s5, s6 := s6, machine := s }

/-- `read_string_from_file` when the file is open: the address of the text and its size. -/
def readStringFromFile (fuel : ℕ) (s : Machine) : Option (Word × Word × Machine) := do
  let (s3, s) := s.allocate textSize
  let (s6, s) ← (run readLoop fuel { s5 := s3, s6 := 0, machine := s }).join
  let t0 := s3 + s6 + 1
  some (s3, s6, s.store t0 0)

/-! ## What is read -/

/-- The part of a file that the program looks at. -/
def text (file : List Byte) : List Byte := file.take maxTextSize

theorem length_text_le (file : List Byte) : (text file).length ≤ maxTextSize := List.length_take_le _ _

/-- Before round `i`, when `i` blocks of the file have been read. -/
structure Reading (s : Machine) (i : ℕ) (r : ReadRegs) : Prop where
  s5 : r.s5 = byteAt s.brk (textSize * i)
  s6 : r.s6 = BitVec.ofNat 32 (textSize * i)
  brk : r.machine.brk = byteAt s.brk (textSize * (i + 1))
  file : r.machine.file = s.file.drop (textSize * i)
  length_le : textSize * i ≤ s.file.length
  mem : r.machine.mem = storeBytes s.mem s.brk (s.file.take (textSize * i))

/-- When the file has been read. -/
structure HasRead (s : Machine) (r : Word × Machine) : Prop where
  size : r.1 = BitVec.ofNat 32 (text s.file).length
  mem : r.2.mem = storeBytes s.mem s.brk (text s.file)
  brk : ∃ k ≤ 20, r.2.brk = byteAt s.brk (textSize * k)

variable {s : Machine} {r : ReadRegs} {i fuel : ℕ}

namespace Reading

theorem start (s : Machine) :
    Reading s 0 { s5 := s.brk, s6 := 0, machine := (s.allocate textSize).2 } where
  s5 := (byteAt_zero s.brk).symm
  s6 := rfl
  brk := rfl
  file := by rw [Machine.allocate, Nat.mul_zero, List.drop_zero]
  length_le := Nat.zero_le _
  mem := by rw [Machine.allocate, Nat.mul_zero, List.take_zero, storeBytes_nil]

/-- The blocks so far and the next one. -/
theorem mem_read (h : Reading s i r) (hi : i < 20) :
    (r.machine.read r.s5 textSize).2.mem = storeBytes s.mem s.brk (s.file.take (textSize * (i + 1))) := by
  have hlen : (s.file.take (textSize * i)).length = textSize * i := List.length_take_of_le h.length_le
  have hnext : s.file.take (textSize * (i + 1)) =
      s.file.take (textSize * i) ++ (s.file.drop (textSize * i)).take textSize := by
    rw [Nat.mul_succ, List.take_add]
  have hle : (s.file.take (textSize * i)).length + ((s.file.drop (textSize * i)).take textSize).length ≤ 2 ^ 32 := by
    have hblock := List.length_take_le textSize (s.file.drop (textSize * i))
    rw [hlen]
    simp only [textSize] at hblock ⊢
    omega
  rw [hnext, ← storeBytes_append hle, hlen, ← h.mem, ← h.s5, ← h.file]
  rfl

/-- The size so far. -/
theorem size_read (h : Reading s i r) :
    r.s6 + (r.machine.read r.s5 textSize).1 = BitVec.ofNat 32 (min (textSize * (i + 1)) s.file.length) := by
  have hle := h.length_le
  rw [h.s6, Machine.read, h.file, ← BitVec.ofNat_add, List.length_take, List.length_drop]
  refine congrArg (BitVec.ofNat 32) ?_
  rw [Nat.mul_succ]
  omega

/-- The last block. -/
theorem last (h : Reading s i r) (hi : i < 20)
    (hend : i = 19 ∨ s.file.length < textSize * (i + 1)) :
    HasRead s (r.s6 + (r.machine.read r.s5 textSize).1, (r.machine.read r.s5 textSize).2) := by
  have htext : s.file.take (textSize * (i + 1)) = text s.file := by
    rcases hend with rfl | hend
    · rfl
    · have hmax : s.file.length ≤ maxTextSize := by
        simp only [textSize, maxTextSize] at hend ⊢
        omega
      rw [text, List.take_of_length_le (Nat.le_of_lt hend), List.take_of_length_le hmax]
  refine ⟨?_, by rw [h.mem_read hi, htext], i + 1, hi, h.brk⟩
  rw [h.size_read, ← List.length_take, htext]

end Reading

/-- A round without an error. -/
theorem readLoop_eq {a0 : Word} (h : (r.machine.read r.s5 textSize).1 = a0) (hne : a0 ≠ -1) :
    readLoop r =
      let s := (r.machine.read r.s5 textSize).2
      if (BitVec.ofNat 32 maxTextSize).sle (r.s6 + a0) then .inr (some (r.s6 + a0, s))
      else if a0 ≠ BitVec.ofNat 32 textSize then .inr (some (r.s6 + a0, s))
      else .inl { s5 := r.s5 + a0, s6 := r.s6 + a0, machine := (s.allocate textSize).2 } := by
  subst h
  exact if_neg hne

/-- Which way a round goes. -/
theorem readLoop_cases (h : Reading s i r) (hi : i < 20) :
    (readLoop r = .inr (some (r.s6 + (r.machine.read r.s5 textSize).1, (r.machine.read r.s5 textSize).2)) ∧
      (i = 19 ∨ s.file.length < textSize * (i + 1))) ∨
    ∃ r', readLoop r = .inl r' ∧ i + 1 < 20 ∧ Reading s (i + 1) r' ∧
      r'.machine = ((r.machine.read r.s5 textSize).2.allocate textSize).2 := by
  have hle := h.length_le
  have hread : (r.machine.read r.s5 textSize).1 = BitVec.ofNat 32 (min textSize (s.file.length - textSize * i)) := by
    rw [Machine.read, h.file, List.length_take, List.length_drop]
  have hsize := h.size_read
  rw [hread] at hsize
  have hmax : maxTextSize = 10240 := rfl
  have htext : textSize = 512 := rfl
  have hmul : textSize * i = 512 * i := rfl
  have hmul' : textSize * (i + 1) = 512 * (i + 1) := rfl
  have hno : BitVec.ofNat 32 (min textSize (s.file.length - textSize * i)) ≠ -1 := by
    intro heq
    have hnat := congrArg BitVec.toNat heq
    have herror : (-1 : Word).toNat = 4294967295 := rfl
    rw [BitVec.toNat_ofNat, herror] at hnat
    omega
  have hbig : (BitVec.ofNat 32 maxTextSize).sle (BitVec.ofNat 32 (min (textSize * (i + 1)) s.file.length)) = true ↔
      maxTextSize ≤ min (textSize * (i + 1)) s.file.length := by
    rw [BitVec.sle_iff_toInt_le, toInt_ofNat (by omega), toInt_ofNat (by omega)]
    omega
  have hfull : BitVec.ofNat 32 (min textSize (s.file.length - textSize * i)) = BitVec.ofNat 32 textSize ↔
      textSize * (i + 1) ≤ s.file.length := by
    constructor
    · intro heq
      have hnat := congrArg BitVec.toNat heq
      rw [BitVec.toNat_ofNat, BitVec.toNat_ofNat] at hnat
      omega
    · intro hfull
      rw [Nat.min_eq_left (by omega)]
  rw [readLoop_eq hread hno, hread, hsize]
  dsimp only
  split_ifs with hb hf
  · rw [hbig] at hb
    exact .inl ⟨rfl, by omega⟩
  · exact .inl ⟨rfl, .inr (Nat.not_le.1 (mt hfull.2 hf))⟩
  · have hall := hfull.1 (not_not.1 hf)
    have hsmall := mt hbig.2 hb
    refine .inr ⟨_, rfl, by omega, ⟨?_, ?_, ?_, ?_, hall, h.mem_read hi⟩, rfl⟩
    · dsimp only
      rw [not_not.1 hf, h.s5]
      exact byteAt_add _ _ _
    · dsimp only
      rw [Nat.min_eq_left hall]
    · show byteAt r.machine.brk _ = _
      rw [h.brk]
      exact byteAt_add _ _ _
    · show r.machine.file.drop textSize = _
      rw [h.file, List.drop_drop, Nat.mul_succ]

/-- What one round does. -/
theorem readLoop_spec (h : Reading s i r) (hi : i < 20) :
    (∃ b, readLoop r = .inr (some b) ∧ HasRead s b) ∨
    ∃ r', readLoop r = .inl r' ∧ i + 1 < 20 ∧ Reading s (i + 1) r' := by
  rcases readLoop_cases h hi with ⟨hround, hend⟩ | ⟨r', hround, hi', hr', -⟩
  · exact .inl ⟨_, hround, h.last hi hend⟩
  · exact .inr ⟨r', hround, hi', hr'⟩

theorem readStringFromFile_eq {s6 : Word} {s' : Machine}
    (h : run readLoop fuel { s5 := s.brk, s6 := 0, machine := (s.allocate textSize).2 } = some (some (s6, s'))) :
    readStringFromFile fuel s = some (s.brk, s6, s'.store (s.brk + s6 + 1) 0) := by
  rw [readStringFromFile, Machine.allocate]
  simp only [Machine.allocate] at h
  simp only [h, Option.bind_eq_bind, Option.bind_some, Option.join_some]

/-- **`read_string_from_file`** returns the text, with a zero behind the byte that follows it. -/
theorem readStringFromFile_spec (hfuel : 20 ≤ fuel) (s : Machine) :
    ∃ s', readStringFromFile fuel s = some (s.brk, BitVec.ofNat 32 (text s.file).length, s') ∧
      s'.mem = sb (storeBytes s.mem s.brk (text s.file)) (byteAt s.brk ((text s.file).length + 1)) 0 ∧
      ∃ k ≤ 20, s'.brk = byteAt s.brk (textSize * k) := by
  have hloop : ∃ b, run readLoop fuel { s5 := s.brk, s6 := 0, machine := (s.allocate textSize).2 } = some b ∧
      ∃ c, b = some c ∧ HasRead s c := by
    refine run_of_counter (i := 0) (n := 20) (J := Reading s) ?_ (.start s) (by omega) (by omega)
    intro i r hi hr
    rcases readLoop_spec hr hi with ⟨c, hround, hc⟩ | hnext
    · exact .inl ⟨some c, hround, c, rfl, hc⟩
    · exact .inr hnext
  obtain ⟨-, hrun, ⟨s6, s'⟩, rfl, hsize, hmem, hbrk⟩ := hloop
  dsimp only at hsize hmem hbrk
  refine ⟨s'.store (s.brk + s6 + 1) 0, ?_, ?_, hbrk⟩
  · rw [readStringFromFile_eq hrun, hsize]
  · rw [Machine.store, hmem, hsize, ← byteAt_succ]
    rfl

end Letters
