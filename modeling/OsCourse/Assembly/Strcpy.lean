/-
  The macro `strcpy` (seminar 10, dz6): a string is copied word by word, up to a word that is
  zero.
-/
import Mathlib.Data.List.Basic
import OsCourse.Lib.Riscv
import OsCourse.Lib.While

namespace Strcpy

open Riscv While

/-! ## The macro -/

/-- The memory, and a record of the bytes that are written. -/
structure Machine where
  mem : Ram
  written : List Word

/-- `sw` -/
def Machine.store (s : Machine) (a v : Word) : Machine :=
  { mem := sw s.mem a v, written := s.written ++ (List.range 4).map (byteAt a) }

/-- `is_null` -/
def isNull (a0 : Word) : Word :=
  let t0 := a0
  if t0 = 0 then 0 else 1

/-- The registers of the loop. -/
structure Regs where
  s0 : Word
  s1 : Word
  machine : Machine

def loop (r : Regs) : Regs ⊕ Machine :=
  let t0 := lw r.machine.mem r.s1
  let s := r.machine.store r.s0 t0
  let s0 := r.s0 + 4
  let s1 := r.s1 + 4
  let a0 := isNull t0
  if a0 ≠ 0 then .inl { s0 := s0, s1 := s1, machine := s } else .inr s

/-- `strcpy(buf, str)` ends, and leaves this machine. -/
def Ends (m : Ram) (buf str : Word) (s : Machine) : Prop :=
  Returns loop { s0 := buf, s1 := str, machine := { mem := m, written := [] } } s

/-! ## Copying a string -/

/-- The size of the words that hold a string and its NUL. -/
def size (t : List Byte) : ℕ := 4 * (t.length / 4 + 1)

/-- A string at a label, and a buffer elsewhere, both at addresses of words. -/
structure Placed (m : Ram) (buf str : Word) (t : List Byte) : Prop where
  aligned : str.toNat % 4 = 0 ∧ buf.toNat % 4 = 0
  string : Spells m str (t ++ [0])
  noNul : 0 ∉ t
  str_le : str.toNat + size t ≤ 2 ^ 32
  buf_le : buf.toNat + size t ≤ 2 ^ 32
  apart : str.toNat + size t ≤ buf.toNat ∨ buf.toNat + size t ≤ str.toNat

/-- What the macro is for: the string and its NUL are copied, and nothing is written behind the
    word with the NUL. -/
def Copies (m : Ram) (buf str : Word) (t : List Byte) : Prop :=
  ∃ s, Ends m buf str s ∧ Spells s.mem buf (t ++ [0]) ∧ ∀ a ∈ s.written, ∃ j < size t, a = byteAt buf j

/-- The word with the NUL is zero. -/
def EndsInZeros (m : Ram) (str : Word) (t : List Byte) : Prop :=
  4 ∣ t.length ∧ ∀ j, t.length < j → j < t.length + 4 → m (byteAt str j) = 0

variable {m : Ram} {buf str : Word} {t : List Byte} {r : Regs} {i : ℕ}

/-- When `i` words have been copied. -/
structure Copied (m : Ram) (buf str : Word) (i : ℕ) (r : Regs) : Prop where
  s0 : r.s0 = elt buf i
  s1 : r.s1 = elt str i
  mem : r.machine.mem = storeBytes m buf (loadBytes m str (4 * i))
  written : r.machine.written = (List.range (4 * i)).map (byteAt buf)

theorem Copied.start (m : Ram) (buf str : Word) :
    Copied m buf str 0 { s0 := buf, s1 := str, machine := { mem := m, written := [] } } :=
  ⟨(elt_zero buf).symm, (elt_zero str).symm, rfl, rfl⟩

/-- The words that are still to be copied have not been changed. -/
theorem Placed.frame (h : Placed m buf str t) {n j : ℕ} (hn : n ≤ size t) (hj : j < size t) :
    storeBytes m buf (loadBytes m str n) (byteAt str j) = m (byteAt str j) := by
  obtain ⟨-, -, -, hstr, hbuf, hapart⟩ := h
  have hat : (byteAt str j).toNat = str.toNat + j := toNat_byteAt (by omega)
  refine storeBytes_of_le ?_ m
  rw [length_loadBytes, BitVec.toNat_sub, hat]
  omega

/-- What the copying of one more word does. -/
theorem Copied.store (h : Copied m buf str i r) (hp : Placed m buf str t) (hi : 4 * (i + 1) ≤ size t) :
    lw r.machine.mem r.s1 = lw m (elt str i) ∧
      (r.machine.store r.s0 (lw r.machine.mem r.s1)).mem = storeBytes m buf (loadBytes m str (4 * (i + 1))) ∧
      (r.machine.store r.s0 (lw r.machine.mem r.s1)).written = (List.range (4 * (i + 1))).map (byteAt buf) := by
  have hsame : ∀ j < 4, r.machine.mem (byteAt (byteAt str (4 * i)) j) = m (byteAt (byteAt str (4 * i)) j) := by
    intro j hj
    rw [h.mem, byteAt_add]
    exact hp.frame (by omega) (by omega)
  have hload : loadBytes r.machine.mem (byteAt str (4 * i)) 4 = loadBytes m (byteAt str (4 * i)) 4 :=
    loadBytes_congr hsame
  have hsize : size t ≤ 2 ^ 32 := Nat.le_trans (Nat.le_add_left _ _) hp.str_le
  rw [h.s1, h.s0]
  refine ⟨?_, ?_, ?_⟩
  · exact lw_congr hsame
  · show sw r.machine.mem (byteAt buf (4 * i)) (lw r.machine.mem (byteAt str (4 * i))) = _
    rw [sw_lw_byteAt, hload, h.mem, Nat.mul_succ, loadBytes_add]
    have hlen : (loadBytes m str (4 * i)).length + (loadBytes m (byteAt str (4 * i)) 4).length ≤ 2 ^ 32 := by
      rw [length_loadBytes, length_loadBytes]
      omega
    rw [← storeBytes_append hlen, length_loadBytes]
  · rw [Machine.store, h.written, Nat.mul_succ, List.range_add, List.map_append, List.map_map]
    refine congrArg _ (List.map_congr_left fun j _ => ?_)
    exact byteAt_add buf (4 * i) j

theorem loop_eq (r : Regs) :
    loop r = if lw r.machine.mem r.s1 = 0 then .inr (r.machine.store r.s0 (lw r.machine.mem r.s1))
      else .inl ⟨r.s0 + 4, r.s1 + 4, r.machine.store r.s0 (lw r.machine.mem r.s1)⟩ := by
  by_cases h0 : lw r.machine.mem r.s1 = 0
  · rw [if_pos h0]
    simp [loop, isNull, h0]
  · rw [if_neg h0]
    simpa [loop, isNull] using h0

/-- One round, in terms of the memory at the beginning. -/
theorem Copied.round (h : Copied m buf str i r) (hp : Placed m buf str t) (hi : i ≤ t.length / 4) :
    ∃ r', Copied m buf str (i + 1) r' ∧
      loop r = if lw m (elt str i) = 0 then .inr r'.machine else .inl r' := by
  obtain ⟨hword, hmem, hwritten⟩ := h.store hp (Nat.mul_le_mul_left 4 (Nat.succ_le_succ hi))
  refine ⟨⟨r.s0 + 4, r.s1 + 4, r.machine.store r.s0 (lw r.machine.mem r.s1)⟩, ⟨?_, ?_, hmem, hwritten⟩, ?_⟩
  · rw [h.s0]
    exact elt_succ buf i
  · rw [h.s1]
    exact elt_succ str i
  · rw [loop_eq, hword]

/-- The words before the one with the NUL do not end the loop. -/
theorem Placed.word_ne_zero (h : Placed m buf str t) (hi : i < t.length / 4) : lw m (elt str i) ≠ 0 := by
  intro h0
  have hlt : 4 * i < t.length := by omega
  have hbyte := (spells_append.1 h.string).1 (4 * i) hlt
  have hzero : m (byteAt str (4 * i)) = 0 := (lw_eq_zero_iff.1 h0).1
  exact h.noNul (hzero.symm.trans hbyte ▸ List.getElem_mem hlt)

theorem Placed.word_eq_zero_iff (h : Placed m buf str t) :
    lw m (elt str (t.length / 4)) = 0 ↔ EndsInZeros m str t := by
  obtain ⟨hstring, hnul⟩ := spells_append.1 h.string
  have hword : lw m (elt str (t.length / 4)) = 0 ↔ ∀ j < 4, m (byteAt str (4 * (t.length / 4) + j)) = 0 := by
    simp only [← byteAt_add]
    exact lw_eq_zero_iff_bytes
  rw [hword]
  constructor
  · intro h0
    have hlen : 4 * (t.length / 4) = t.length := by
      by_contra hne
      have hlt : 4 * (t.length / 4) < t.length := by omega
      have hbyte := hstring _ hlt
      exact h.noNul ((h0 0 (by decide)).symm.trans hbyte ▸ List.getElem_mem hlt)
    refine ⟨⟨t.length / 4, hlen.symm⟩, fun j hj hj' => ?_⟩
    have hbyte := h0 (j - t.length) (by omega)
    rw [hlen, Nat.add_sub_cancel' (Nat.le_of_lt hj)] at hbyte
    exact hbyte
  · rintro ⟨hdvd, hzeros⟩ j hj
    rw [Nat.mul_div_cancel' hdvd]
    rcases Nat.eq_zero_or_pos j with rfl | hpos
    · have hbyte := (spells_cons.1 hnul).1
      exact hbyte
    · exact hzeros _ (by omega) (by omega)

/-- The string and its NUL are among the bytes of the words. -/
theorem Placed.loadBytes_eq (h : Placed m buf str t) :
    ∃ rest, loadBytes m str (size t) = (t ++ [0]) ++ rest := by
  have hlen : size t = (t ++ [0]).length + (size t - (t ++ [0]).length) := by
    rw [List.length_append, List.length_singleton]
    unfold size
    omega
  rw [hlen, loadBytes_add, h.string.loadBytes_eq]
  exact ⟨_, rfl⟩

theorem Placed.size_lt (h : Placed m buf str t) : size t < 2 ^ 32 := by
  obtain ⟨-, -, -, hstr, hbuf, hapart⟩ := h
  have hpos : 0 < size t := Nat.mul_pos (by decide) (Nat.succ_pos _)
  omega

/-- What the next round writes is written in the end. -/
theorem mem_written {s : Machine} (h : Returns loop r s) {a : Word}
    (ha : a ∈ (r.machine.store r.s0 (lw r.machine.mem r.s1)).written) : a ∈ s.written := by
  refine h.of_invariant (J := fun r => a ∈ (r.machine.store r.s0 (lw r.machine.mem r.s1)).written)
    (Q := fun s => a ∈ s.written) ?_ ?_ ha
  · intro r r' hr hloop
    rw [loop_eq] at hloop
    split_ifs at hloop with h0
    obtain rfl := Sum.inl.inj hloop
    exact List.mem_append_left _ hr
  · intro r s hr hloop
    rw [loop_eq] at hloop
    split_ifs at hloop with h0
    obtain rfl := Sum.inr.inj hloop
    exact hr

/-- As long as there has been no word that is zero, the loop goes on. -/
theorem Placed.reaches (h : Placed m buf str t) :
    ∀ i, i ≤ t.length / 4 + 1 → (∀ j < i, lw m (elt str j) ≠ 0) →
      ∃ r, Copied m buf str i r ∧ ∀ s, Ends m buf str s ↔ Returns loop r s
  | 0, _, _ => ⟨_, Copied.start m buf str, fun _ => Iff.rfl⟩
  | i + 1, hi, hne => by
    obtain ⟨r, hr, hreach⟩ := h.reaches i (Nat.le_of_succ_le hi) fun j hj => hne j (Nat.lt_succ_of_lt hj)
    obtain ⟨r', hr', hloop⟩ := hr.round h (Nat.le_of_succ_le_succ hi)
    rw [if_neg (hne i (Nat.lt_succ_self i))] at hloop
    exact ⟨r', hr', fun s => (hreach s).trans (returns_iff_of_inl hloop)⟩

theorem Placed.copies (h : Placed m buf str t) (hz : EndsInZeros m str t) : Copies m buf str t := by
  obtain ⟨r, hr, hreach⟩ := h.reaches (t.length / 4) (Nat.le_succ _) fun j hj => h.word_ne_zero hj
  obtain ⟨r', hr', hloop⟩ := hr.round h (Nat.le_refl _)
  rw [if_pos (h.word_eq_zero_iff.2 hz)] at hloop
  refine ⟨r'.machine, (hreach r'.machine).2 (returns_of_inr hloop), ?_, ?_⟩
  · obtain ⟨rest, hrest⟩ := h.loadBytes_eq
    have hlen : (loadBytes m str (size t)).length ≤ 2 ^ 32 := by
      rw [length_loadBytes]
      exact Nat.le_of_lt h.size_lt
    have hall := spells_storeBytes hlen m buf
    have hmem : r'.machine.mem = storeBytes m buf (loadBytes m str (size t)) := hr'.mem
    rw [← hmem, hrest] at hall
    exact (spells_append.1 hall).1
  · intro a ha
    rw [hr'.written] at ha
    obtain ⟨j, hj, rfl⟩ := List.mem_map.1 ha
    exact ⟨j, List.mem_range.1 hj, rfl⟩

/-- If the word with the NUL is not zero, then one more word is stored, whatever it is. -/
theorem Placed.goes_on (h : Placed m buf str t) (hz : ¬ EndsInZeros m str t) {s : Machine}
    (hs : Ends m buf str s) : byteAt buf (size t) ∈ s.written := by
  have hne : ∀ j < t.length / 4 + 1, lw m (elt str j) ≠ 0 := by
    intro j hj
    rcases Nat.lt_or_eq_of_le (Nat.le_of_lt_succ hj) with hlt | rfl
    · exact h.word_ne_zero hlt
    · exact fun h0 => hz (h.word_eq_zero_iff.1 h0)
  obtain ⟨r, hr, hreach⟩ := h.reaches _ (Nat.le_refl _) hne
  refine mem_written ((hreach s).1 hs) (List.mem_append_right _ (List.mem_map.2 ⟨0, List.mem_range.2 (by decide), ?_⟩))
  rw [hr.s0, byteAt_zero]
  rfl

theorem Placed.not_copies (h : Placed m buf str t) (hz : ¬ EndsInZeros m str t) : ¬ Copies m buf str t := by
  rintro ⟨s, hs, -, hwritten⟩
  obtain ⟨j, hj, heq⟩ := hwritten _ (h.goes_on hz hs)
  have hsize : size t = j := (byteAt_inj h.size_lt (Nat.lt_trans hj h.size_lt)).1 heq
  exact absurd hj (Nat.not_lt.2 (Nat.le_of_eq hsize))

/-- **`strcpy` copies the string and stops** exactly if the word with the NUL is zero. -/
theorem copies_iff_endsInZeros (h : Placed m buf str t) : Copies m buf str t ↔ EndsInZeros m str t := by
  constructor
  · intro hc
    by_contra hz
    exact h.not_copies hz hc
  · intro hz
    exact h.copies hz

/-! ## The program -/

/-- A memory of zeros, with a string at the label `test`. -/
def image (t : List Byte) : Ram := storeBytes (fun _ => 0) 0x10010000 (t ++ [0])

/-- The buffer is on the heap. -/
theorem placed_image (hnul : 0 ∉ t) (hlen : t.length < 65536) : Placed (image t) 0x10040000 0x10010000 t := by
  have hsize : size t ≤ 65536 := by
    unfold size
    omega
  have hstr : (0x10010000 : Word).toNat = 268500992 := rfl
  have hbuf : (0x10040000 : Word).toNat = 268697600 := rfl
  refine ⟨⟨rfl, rfl⟩, spells_storeBytes ?_ _ _, hnul, ?_, ?_, ?_⟩
  · rw [List.length_append, List.length_singleton]
    omega
  all_goals omega

theorem image_byteAt {j : ℕ} (hj : t.length < j) (hj' : j < 2 ^ 32) : image t (byteAt 0x10010000 j) = 0 := by
  refine storeBytes_of_le ?_ _
  rw [toNat_byteAt_sub hj', List.length_append, List.length_singleton]
  exact hj

theorem copies_iff_endsInZeros_test : Copies (image [116, 101, 115, 116]) 0x10040000 0x10010000 [116, 101, 115, 116] :=
  (copies_iff_endsInZeros (placed_image (by decide) (by decide))).2
    ⟨by decide, fun _ hj hj' => image_byteAt hj (Nat.lt_trans hj' (by decide))⟩

/-- The string of the program, `hello`. -/
theorem not_copies_hello :
    Placed (image [104, 101, 108, 108, 111]) 0x10040000 0x10010000 [104, 101, 108, 108, 111] ∧
      ¬ Copies (image [104, 101, 108, 108, 111]) 0x10040000 0x10010000 [104, 101, 108, 108, 111] := by
  have hplaced := placed_image (t := [104, 101, 108, 108, 111]) (by decide) (by decide)
  refine ⟨hplaced, hplaced.not_copies ?_⟩
  rintro ⟨hdvd, -⟩
  revert hdvd
  decide

end Strcpy
