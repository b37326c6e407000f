/-
  The array program (IDZ1): array B is made of the elements of array A that differ from the
  minimum of A.
-/
import OsCourse.Lib.Riscv
import OsCourse.Lib.While
import OsCourse.Lib.Text

namespace Minimum

open Riscv While

/-! ## The machine -/

/-- An access to the data segment. -/
inductive Access
  | load (a : Word)
  | store (a : Word)

/-- The data segment with a record of the accesses to it, the stack and the console. -/
structure Machine where
  mem : Ram
  trace : List Access
  stack : List Word
  console : Text

namespace Machine

/-- `lw` -/
def load (s : Machine) (a : Word) : Word × Machine :=
  (lw s.mem a, { s with trace := s.trace ++ [.load a] })

/-- `sw` -/
def store (s : Machine) (a v : Word) : Machine :=
  { s with mem := sw s.mem a v, trace := s.trace ++ [.store a] }

/-- `addi sp sp -4; sw v (sp)` -/
def push (s : Machine) (v : Word) : Machine := { s with stack := v :: s.stack }

/-- `lw v (sp); addi sp sp 4` -/
def pop (s : Machine) : Option (Word × Machine) :=
  match s.stack with
  | [] => none
  | v :: stack => some (v, { s with stack := stack })

/-- `print_str` -/
def print (s : Machine) (t : Text) : Machine := { s with console := s.console ++ t }

end Machine

/-- The data segment of the program.  The arrays have room for `capacity` words, and the words
    that hold their sizes stand behind them. -/
structure Layout where
  array_A : Word
  capacity : ℕ
  fits : FitsIn array_A (2 * capacity + 2)

namespace Layout

def array_A_size (l : Layout) : Word := elt l.array_A l.capacity
def array_B (l : Layout) : Word := elt l.array_A (l.capacity + 1)
def array_B_size (l : Layout) : Word := elt l.array_A (2 * l.capacity + 1)

/-- The program reserves 40 bytes for each array, from the beginning of the data segment. -/
def source : Layout where
  array_A := 0x10010000
  capacity := 10
  fits := by unfold FitsIn; decide

end Layout

/-! ## The routines -/

/-- `set_first_to_min` -/
def setFirstToMin (register1 register2 : Word) : Word :=
  if register1.sle register2 then register1 else register2

/-- The registers of `show_array`. -/
structure ShowRegs where
  t0 : Word
  t1 : Word
  machine : Machine

def showLoop (t2 : Word) (r : ShowRegs) : ShowRegs ⊕ Machine :=
  let (t3, s) := r.machine.load r.t0
  let s := (s.print (Text.fmtInt t3.toInt)).print [' ']
  let t0 := r.t0 + 4
  let t1 := r.t1 + 1
  if t1.slt t2 then .inl { t0 := t0, t1 := t1, machine := s } else .inr s

def showArray (fuel : ℕ) (s : Machine) (a0 a1 : Word) (a2 : Text) : Option Machine :=
  let s := ((s.print "This is ".toList).print a2).print " array : \n[ ".toList
  let t2 := a1
  (if t2 = 0 then some s else run (showLoop t2) fuel { t0 := a0, t1 := 0, machine := s }).map
    fun s => s.print "]\n".toList

/-- The registers of `get_array_min`. -/
structure MinRegs where
  t0 : Word
  t1 : Word
  t3 : Word
  machine : Machine

def findMinLoop (t2 : Word) (r : MinRegs) : MinRegs ⊕ (Word × Machine) :=
  let (t4, s) := r.machine.load r.t0
  let t3 := setFirstToMin r.t3 t4
  let t0 := r.t0 + 4
  let t1 := r.t1 + 1
  if t1.slt t2 then .inl { t0 := t0, t1 := t1, t3 := t3, machine := s } else .inr (t3, s)

def getArrayMin (fuel : ℕ) (s : Machine) (a0 a1 : Word) : Option (Word × Machine) :=
  run (findMinLoop a1) fuel { t0 := a0, t1 := 0, t3 := 2147483647, machine := s }

/-- The registers of `get_len_of_array_without_elem`. -/
structure LenRegs where
  t0 : Word
  t1 : Word
  t4 : Word
  machine : Machine

def getLenLoop (t2 t3 : Word) (r : LenRegs) : LenRegs ⊕ (Word × Machine) :=
  let (t5, s) := r.machine.load r.t0
  let t4 := if t5 = t3 then r.t4 else r.t4 + 1
  let t1 := r.t1 + 1
  let t0 := r.t0 + 4
  if t1.slt t2 then .inl { t0 := t0, t1 := t1, t4 := t4, machine := s } else .inr (t4, s)

def getLenOfArrayWithoutElem (fuel : ℕ) (s : Machine) (a0 a1 a3 : Word) : Option (Word × Machine) :=
  run (getLenLoop a1 a3) fuel { t0 := a0, t1 := 0, t4 := 0, machine := s }

/-- The registers of `fill_B_array`. -/
structure FillRegs where
  t0 : Word
  t2 : Word
  t3 : Word
  t5 : Word
  machine : Machine

def fillBLoop (t4 s0 : Word) (r : FillRegs) : FillRegs ⊕ Machine :=
  let (t6, s) := r.machine.load r.t0
  let (t3, t5, s) := if s0 = t6 then (r.t3, r.t5, s) else (r.t3 + 4, r.t5 + 1, s.store r.t3 t6)
  let t2 := r.t2 + 1
  let t0 := r.t0 + 4
  if t5.slt t4 then .inl { t0 := t0, t2 := t2, t3 := t3, t5 := t5, machine := s } else .inr s

/-- `fill_B_array`, which returns with the `s0` of its caller.  The length of A, in `a1`, is
    not used. -/
def fillBArray (fuel : ℕ) (s : Machine) (s0 a0 _a1 a2 a3 a4 : Word) : Option (Word × Machine) := do
  let s ← run (fillBLoop a3 a4) fuel { t0 := a0, t2 := 0, t3 := a2, t5 := 0, machine := s.push s0 }
  s.pop

/-! ## The program -/

/-- The registers with which `main_part` calls `fill_B_array`, and the machine. -/
structure FillCall where
  s0 : Word
  a1 : Word
  a3 : Word
  machine : Machine

/-- `main_part` up to the call of `fill_B_array`. -/
def callFill (l : Layout) (fuel : ℕ) (s : Machine) : Option FillCall := do
  let (a1, s) := s.load l.array_A_size
  let s ← showArray fuel s l.array_A a1 ['A']
  let (a1, s) := s.load l.array_A_size
  let (s0, s) ← getArrayMin fuel s l.array_A a1
  let (a1, s) := s.load l.array_A_size
  let (a0, s) ← getLenOfArrayWithoutElem fuel s l.array_A a1 s0
  let s := s.store l.array_B_size a0
  let (a1, s) := s.load l.array_A_size
  let (a3, s) := s.load l.array_B_size
  some { s0 := s0, a1 := a1, a3 := a3, machine := s }

def FillCall.run (l : Layout) (fuel : ℕ) (c : FillCall) : Option (Word × Machine) :=
  fillBArray fuel c.machine c.s0 l.array_A c.a1 l.array_B c.a3 c.s0

/-- `main_part`, where each loop has at most `fuel` rounds. -/
def mainPart (l : Layout) (fuel : ℕ) (s : Machine) : Option Machine := do
  let c ← callFill l fuel s
  let (_, s) ← c.run l fuel
  let (a1, s) := s.load l.array_B_size
  showArray fuel s l.array_B a1 ['B']

/-! ## Routines that only read -/

/-- Memory and stack are as before. -/
structure Quiet (s s' : Machine) : Prop where
  mem : s'.mem = s.mem
  stack : s'.stack = s.stack

theorem Quiet.refl (s : Machine) : Quiet s s := ⟨rfl, rfl⟩

theorem Quiet.trans {s s' s'' : Machine} (h : Quiet s s') (h' : Quiet s' s'') : Quiet s s'' :=
  ⟨h'.mem.trans h.mem, h'.stack.trans h.stack⟩

theorem Quiet.load {s s' : Machine} (h : Quiet s s') (a : Word) : Quiet s (s'.load a).2 := ⟨h.mem, h.stack⟩

theorem Quiet.print {s s' : Machine} (h : Quiet s s') (t : Text) : Quiet s (s'.print t) := ⟨h.mem, h.stack⟩

/-- The words from the address `a` on are those of the list. -/
def Holds (m : Ram) (a : Word) (xs : List Word) : Prop := ∀ i (h : i < xs.length), lw m (elt a i) = xs[i]

/-- The least element of an array. -/
structure IsMinimum (xs : List Word) (m : Word) : Prop where
  mem : m ∈ xs
  le : ∀ x ∈ xs, m.toInt ≤ x.toInt

/-- The elements that differ from `m`. -/
def others (xs : List Word) (m : Word) : List Word := xs.filter (· ≠ m)

variable {s : Machine} {xs : List Word} {m a : Word} {n i fuel : ℕ}

theorem showArray_spec (hn : n < 2 ^ 31) (hfuel : n ≤ fuel) (s : Machine) (a : Word) (name : Text) :
    ∃ s', showArray fuel s a (BitVec.ofNat 32 n) name = some s' ∧ Quiet s s' := by
  have hstart : Quiet s (((s.print "This is ".toList).print name).print " array : \n[ ".toList) :=
    ((Quiet.refl s).print _ |>.print _).print _
  rcases Nat.eq_zero_or_pos n with rfl | hpos
  · exact ⟨_, rfl, hstart.print _⟩
  · have hne : BitVec.ofNat 32 n ≠ 0 := ofNat_ne_zero hpos hn
    have hloop : ∀ s₀, Quiet s s₀ →
        ∃ s', run (showLoop (BitVec.ofNat 32 n)) fuel { t0 := a, t1 := 0, machine := s₀ } = some s' ∧
          Quiet s s' := by
      intro s₀ hs₀
      refine run_of_elements (i := 0) (n := n) (J := fun i r => r.t1 = BitVec.ofNat 32 i ∧ Quiet s r.machine)
        ?_ ⟨rfl, hs₀⟩ hpos (by omega)
      rintro i ⟨t0, t1, s'⟩ hi ⟨rfl, hq⟩
      have hq' := ((hq.load t0).print (Text.fmtInt (lw s'.mem t0).toInt)).print [' ']
      rw [showLoop]
      exact ⟨_, _, if_congr (slt_succ hn (by omega)) rfl rfl, ⟨ofNat_succ i, hq'⟩, fun _ => hq'⟩
    obtain ⟨s', hrun, hq⟩ := hloop _ hstart
    refine ⟨_, ?_, hq.print "]\n".toList⟩
    rw [showArray]
    rw [if_neg hne, hrun]
    rfl

/-! ## The minimum -/

/-- The least of the elements so far, with the greatest word to begin with. -/
structure LeastSoFar (xs : List Word) (t : Word) : Prop where
  mem : t = 2147483647 ∨ t ∈ xs
  le : ∀ x ∈ xs, t.toInt ≤ x.toInt

theorem LeastSoFar.next {t : Word} (h : LeastSoFar xs t) (x : Word) :
    LeastSoFar (xs ++ [x]) (setFirstToMin t x) := by
  have hcase : t.sle x = true ↔ t.toInt ≤ x.toInt := BitVec.sle_iff_toInt_le
  unfold setFirstToMin
  split_ifs with hle
  · refine ⟨h.mem.imp_right fun ht => List.mem_append_left _ ht, fun y hy => ?_⟩
    rcases List.mem_append.1 hy with hy | hy
    · exact h.le y hy
    · obtain rfl := List.mem_singleton.1 hy
      exact hcase.1 hle
  · have hlt := mt hcase.2 hle
    refine ⟨.inr (List.mem_append_right _ (List.mem_singleton_self x)), fun y hy => ?_⟩
    rcases List.mem_append.1 hy with hy | hy
    · have := h.le y hy
      omega
    · obtain rfl := List.mem_singleton.1 hy
      exact Int.le_refl _

theorem LeastSoFar.isMinimum {t : Word} (h : LeastSoFar xs t) (hne : xs ≠ []) : IsMinimum xs t := by
  refine ⟨?_, h.le⟩
  rcases h.mem with rfl | ht
  · -- all elements are the greatest word
    obtain ⟨x, xs, rfl⟩ := List.exists_cons_of_ne_nil hne
    have hle := h.le x List.mem_cons_self
    have hword := inWord_toInt x
    have hmax : (2147483647 : Word).toInt = 2147483647 := rfl
    have heq : x = 2147483647 := by
      apply BitVec.eq_of_toInt_eq
      unfold InWord at hword
      omega
    exact heq ▸ List.mem_cons_self
  · exact ht

theorem getArrayMin_spec (hxs : Holds s.mem a xs) (hne : xs ≠ []) (hlen : xs.length < 2 ^ 31)
    (hfuel : xs.length ≤ fuel) :
    ∃ r, getArrayMin fuel s a (BitVec.ofNat 32 xs.length) = some r ∧ IsMinimum xs r.1 ∧ Quiet s r.2 := by
  refine run_of_elements (i := 0) (n := xs.length) (J := fun i (r : MinRegs) => r.t0 = elt a i ∧
    r.t1 = BitVec.ofNat 32 i ∧ LeastSoFar (xs.take i) r.t3 ∧ Quiet s r.machine) ?_
    ⟨(elt_zero a).symm, rfl, ⟨.inl rfl, by simp⟩, Quiet.refl s⟩ (List.length_pos_iff.2 hne) (by omega)
  rintro i ⟨t0, t1, t3, s'⟩ hi ⟨rfl, rfl, hleast, hq⟩
  have hx : lw s'.mem (elt a i) = xs[i] := by rw [hq.mem, hxs i hi]
  have hleast' : LeastSoFar (xs.take (i + 1)) (setFirstToMin t3 (lw s'.mem (elt a i))) := by
    rw [hx, List.take_succ_eq_append_getElem hi]
    exact hleast.next xs[i]
  have hq' := hq.load (elt a i)
  rw [findMinLoop]
  refine ⟨_, _, if_congr (slt_succ hlen (by omega)) rfl rfl, ⟨elt_succ a i, ofNat_succ i, hleast', hq'⟩, ?_⟩
  intro hlast
  rw [hlast, List.take_length] at hleast'
  exact ⟨hleast'.isMinimum hne, hq'⟩

/-! ## The number of the other elements -/

theorem length_others_take_succ (hi : i < xs.length) : (others (xs.take (i + 1)) m).length =
    (others (xs.take i) m).length + if xs[i] = m then 0 else 1 := by
  rw [List.take_succ_eq_append_getElem hi, others, List.filter_append, List.length_append, others]
  split_ifs with h
  all_goals simp [h]

theorem getLen_spec (hxs : Holds s.mem a xs) (hne : xs ≠ []) (hlen : xs.length < 2 ^ 31)
    (hfuel : xs.length ≤ fuel) (m : Word) :
    ∃ r, getLenOfArrayWithoutElem fuel s a (BitVec.ofNat 32 xs.length) m = some r ∧
      r.1 = BitVec.ofNat 32 (others xs m).length ∧ Quiet s r.2 := by
  refine run_of_elements (i := 0) (n := xs.length) (J := fun i (r : LenRegs) => r.t0 = elt a i ∧
    r.t1 = BitVec.ofNat 32 i ∧ r.t4 = BitVec.ofNat 32 (others (xs.take i) m).length ∧ Quiet s r.machine) ?_
    ⟨(elt_zero a).symm, rfl, rfl, Quiet.refl s⟩ (List.length_pos_iff.2 hne) (by omega)
  rintro i ⟨t0, t1, t4, s'⟩ hi ⟨rfl, rfl, rfl, hq⟩
  have hx : lw s'.mem (elt a i) = xs[i] := by rw [hq.mem, hxs i hi]
  have hcount : (if lw s'.mem (elt a i) = m then BitVec.ofNat 32 (others (xs.take i) m).length
      else BitVec.ofNat 32 (others (xs.take i) m).length + 1) =
      BitVec.ofNat 32 (others (xs.take (i + 1)) m).length := by
    rw [hx, length_others_take_succ hi]
    split_ifs
    · rfl
    · exact ofNat_succ _
  have hq' := hq.load (elt a i)
  rw [getLenLoop]
  dsimp only [Machine.load] at hq' ⊢
  rw [hcount]
  refine ⟨_, _, if_congr (slt_succ hlen (by omega)) rfl rfl, ⟨elt_succ a i, ofNat_succ i, rfl, hq'⟩, ?_⟩
  intro hlast
  exact ⟨by rw [hlast, List.take_length], hq'⟩

/-! ## Filling array B -/

/-- The accesses that are within the first `n` words of A and the first `size` words of B. -/
def Access.Within (l : Layout) (n size : ℕ) : Access → Prop
  | .load a => ∃ i < n, a = elt l.array_A i
  | .store a => ∃ j < size, a = elt l.array_B j

theorem others_take (xs : List Word) (m : Word) (i : ℕ) : List.Sublist (others (xs.take i) m) (others xs m) :=
  (List.take_sublist i xs).filter _

/-- When `i` elements of A have been looked at. -/
structure Filled (l : Layout) (xs : List Word) (m : Word) (s : Machine) (i : ℕ) (s' : Machine) : Prop where
  copied : Holds s'.mem l.array_B (others (xs.take i) m)
  frame : ∀ k < 2 * l.capacity + 2, (∀ j < (others xs m).length, k ≠ l.capacity + 1 + j) →
    lw s'.mem (elt l.array_A k) = lw s.mem (elt l.array_A k)
  stack : s'.stack = s.stack
  trace : ∃ t, s'.trace = s.trace ++ t ∧ ∀ x ∈ t, x.Within l xs.length (others xs m).length

namespace Filled
variable {l : Layout} {s' : Machine}

theorem start (l : Layout) (xs : List Word) (m : Word) (s : Machine) : Filled l xs m s 0 s :=
  ⟨fun i hi => absurd hi (Nat.not_lt_zero i), fun _ _ _ => rfl, rfl, [], by simp, by simp⟩

theorem load (h : Filled l xs m s i s') (hi : i < xs.length) : Filled l xs m s i (s'.load (elt l.array_A i)).2 := by
  obtain ⟨t, ht, hwithin⟩ := h.trace
  refine ⟨h.copied, h.frame, h.stack, t ++ [.load (elt l.array_A i)], by simp [Machine.load, ht], fun x hx => ?_⟩
  rcases List.mem_append.1 hx with hx | hx
  · exact hwithin x hx
  · obtain rfl := List.mem_singleton.1 hx
    exact ⟨i, hi, rfl⟩

/-- A is not changed. -/
theorem element (h : Filled l xs m s i s') (hxs : Holds s.mem l.array_A xs) (hlen : xs.length ≤ l.capacity)
    (hi : i < xs.length) : lw s'.mem (elt l.array_A i) = xs[i] := by
  rw [h.frame i (by omega) (by omega), hxs i hi]

theorem skip (h : Filled l xs m s i s') (hi : i < xs.length) (hx : xs[i] = m) : Filled l xs m s (i + 1) s' := by
  have hsame : others (xs.take (i + 1)) m = others (xs.take i) m := by
    rw [List.take_succ_eq_append_getElem hi, others, others, List.filter_append]
    simp [hx]
  exact ⟨hsame ▸ h.copied, h.frame, h.stack, h.trace⟩

theorem copy (h : Filled l xs m s i s') (hlen : xs.length ≤ l.capacity) (hi : i < xs.length) (hx : xs[i] ≠ m) :
    Filled l xs m s (i + 1) (s'.store (elt l.array_B (others (xs.take i) m).length) xs[i]) := by
  have hnext : others (xs.take (i + 1)) m = others (xs.take i) m ++ [xs[i]] := by
    rw [List.take_succ_eq_append_getElem hi, others, others, List.filter_append]
    simp [hx]
  have hlt : (others (xs.take i) m).length < (others xs m).length := by
    have hle := (others_take xs m (i + 1)).length_le
    rw [hnext, List.length_append, List.length_singleton] at hle
    omega
  have hsize : (others xs m).length ≤ xs.length := List.length_filter_le _ _
  have hB : ∀ j, elt l.array_B j = elt l.array_A (l.capacity + 1 + j) := fun j => elt_add _ _ j
  obtain ⟨t, ht, hwithin⟩ := h.trace
  refine ⟨fun j hj => ?_, fun k hk hkB => ?_, h.stack,
    t ++ [.store (elt l.array_B (others (xs.take i) m).length)], by simp [Machine.store, ht], fun x hx => ?_⟩
  · simp only [hnext, List.length_append, List.length_singleton] at hj
    simp only [Machine.store, hB]
    rw [lw_sw_elt l.fits (by omega) (by omega)]
    split_ifs with hlast
    · obtain rfl : j = (others (xs.take i) m).length := by omega
      simp [hnext]
    · have hj' : j < (others (xs.take i) m).length := by omega
      have hold := h.copied j hj'
      rw [hB] at hold
      rw [hold]
      simp [hnext, List.getElem_append_left hj']
  · simp only [Machine.store, hB]
    rw [lw_sw_elt l.fits (by omega) hk, if_neg (hkB _ hlt)]
    exact h.frame k hk hkB
  · rcases List.mem_append.1 hx with hx | hx
    · exact hwithin x hx
    · obtain rfl := List.mem_singleton.1 hx
      exact ⟨_, hlt, rfl⟩

/-- When all of them have been copied there is nothing left to do. -/
theorem done (h : Filled l xs m s i s') (hle : (others xs m).length ≤ (others (xs.take i) m).length) :
    Filled l xs m s xs.length s' := by
  have hsub := others_take xs m i
  have hall : others (xs.take i) m = others (xs.take xs.length) m := by
    rw [List.take_length]
    exact hsub.eq_of_length (Nat.le_antisymm hsub.length_le hle)
  exact ⟨hall ▸ h.copied, h.frame, h.stack, h.trace⟩

end Filled

/-- **`fill_B_array`** copies the elements that differ from `m`, and stops at the last of them. -/
theorem fillBArray_spec {l : Layout} (hxs : Holds s.mem l.array_A xs) (hne : xs ≠ []) (hlen : xs.length ≤ l.capacity)
    (hfuel : xs.length ≤ fuel) (m s0 a1 : Word) :
    ∃ s', fillBArray fuel s s0 l.array_A a1 l.array_B (BitVec.ofNat 32 (others xs m).length) m = some (s0, s') ∧
      Filled l xs m s xs.length s' := by
  have hfits := l.fits
  have hsize : (others xs m).length ≤ xs.length := List.length_filter_le _ _
  unfold FitsIn at hfits
  have hloop : ∃ s', run (fillBLoop (BitVec.ofNat 32 (others xs m).length) m) fuel
      { t0 := l.array_A, t2 := 0, t3 := l.array_B, t5 := 0, machine := s.push s0 } = some s' ∧
      Filled l xs m (s.push s0) xs.length s' := by
    refine run_of_counter (i := 0) (n := xs.length) (J := fun i (r : FillRegs) => r.t0 = elt l.array_A i ∧
      r.t3 = elt l.array_B (others (xs.take i) m).length ∧
      r.t5 = BitVec.ofNat 32 (others (xs.take i) m).length ∧ Filled l xs m (s.push s0) i r.machine) ?_
      ⟨(elt_zero _).symm, (elt_zero _).symm, rfl, .start l xs m _⟩ (List.length_pos_iff.2 hne) (by omega)
    rintro i ⟨t0, t2, t3, t5, s'⟩ hi ⟨rfl, rfl, rfl, hfilled⟩
    have hx : lw s'.mem (elt l.array_A i) = xs[i] := hfilled.element hxs hlen hi
    -- the registers and the machine behind the branch
    obtain ⟨s'', hbranch, hfilled'⟩ : ∃ s'',
        (if m = xs[i] then (elt l.array_B (others (xs.take i) m).length,
            BitVec.ofNat 32 (others (xs.take i) m).length, (s'.load (elt l.array_A i)).2)
          else (elt l.array_B (others (xs.take i) m).length + 4, BitVec.ofNat 32 (others (xs.take i) m).length + 1,
            (s'.load (elt l.array_A i)).2.store (elt l.array_B (others (xs.take i) m).length) xs[i])) =
          (elt l.array_B (others (xs.take (i + 1)) m).length,
            BitVec.ofNat 32 (others (xs.take (i + 1)) m).length, s'') ∧
        Filled l xs m (s.push s0) (i + 1) s'' := by
      have hcount := length_others_take_succ (m := m) hi
      by_cases hm : xs[i] = m
      · rw [if_pos hm] at hcount
        rw [if_pos hm.symm, hcount]
        exact ⟨_, rfl, (hfilled.load hi).skip hi hm⟩
      · rw [if_neg hm] at hcount
        rw [if_neg (Ne.symm hm), hcount, elt_succ, ofNat_succ]
        exact ⟨_, rfl, (hfilled.load hi).copy hlen hi hm⟩
    have hload : s'.load (elt l.array_A i) = (xs[i], (s'.load (elt l.array_A i)).2) := by
      rw [← hx]
      rfl
    have hle := (others_take xs m (i + 1)).length_le
    rw [fillBLoop, hload]
    dsimp only
    rw [hbranch]
    dsimp only
    split_ifs with hmore
    · rw [slt_ofNat (by omega) (by omega)] at hmore
      refine .inr ⟨_, rfl, ?_, elt_succ _ i, rfl, rfl, hfilled'⟩
      by_contra hlast
      rw [List.take_of_length_le (Nat.not_lt.1 hlast)] at hmore
      exact Nat.lt_irrefl _ hmore
    · rw [slt_ofNat (by omega) (by omega)] at hmore
      exact .inl ⟨_, rfl, hfilled'.done (Nat.not_lt.1 hmore)⟩
  obtain ⟨s', hrun, hfilled⟩ := hloop
  refine ⟨{ s' with stack := s.stack }, ?_, hfilled.copied, hfilled.frame, rfl, hfilled.trace⟩
  have hpop : s'.pop = some (s0, { s' with stack := s.stack }) := by
    rw [Machine.pop, hfilled.stack]
    rfl
  rw [fillBArray, hrun]
  exact hpop

/-! ## The program -/

/-- Array A and its size are in the data segment. -/
structure Loaded (l : Layout) (xs : List Word) (m : Ram) : Prop where
  length_le : xs.length ≤ l.capacity
  size : lw m l.array_A_size = BitVec.ofNat 32 xs.length
  elements : Holds m l.array_A xs

theorem Loaded.store_size {l : Layout} {mem : Ram} (h : Loaded l xs mem) (v : Word) :
    Loaded l xs (sw mem l.array_B_size v) := by
  have hlen := h.length_le
  refine ⟨hlen, ?_, fun i hi => ?_⟩
  · rw [Layout.array_A_size, Layout.array_B_size, lw_sw_elt l.fits (by omega) (by omega), if_neg (by omega)]
    exact h.size
  · rw [Layout.array_B_size, lw_sw_elt l.fits (by omega) (by omega), if_neg (by omega)]
    exact h.elements i hi

theorem IsMinimum.unique {m' : Word} (h : IsMinimum xs m) (h' : IsMinimum xs m') : m = m' :=
  BitVec.eq_of_toInt_eq (Int.le_antisymm (h.le m' h'.mem) (h'.le m h.mem))

theorem IsMinimum.ne_nil (h : IsMinimum xs m) : xs ≠ [] := List.ne_nil_of_mem h.mem

theorem Loaded.length_lt {l : Layout} {mem : Ram} (h : Loaded l xs mem) : xs.length < 2 ^ 31 := by
  have hfits := l.fits
  have hlen := h.length_le
  unfold FitsIn at hfits
  omega

theorem load_eq {a v : Word} (h : lw s.mem a = v) : ∃ s', s.load a = (v, s') ∧ Quiet s s' :=
  ⟨(s.load a).2, by rw [← h]; rfl, (Quiet.refl s).load a⟩

/-- How `fill_B_array` is called. -/
theorem callFill_spec {l : Layout} (h : Loaded l xs s.mem) (hm : IsMinimum xs m) (hfuel : xs.length ≤ fuel) :
    ∃ c, callFill l fuel s = some c ∧ c.s0 = m ∧ c.a3 = BitVec.ofNat 32 (others xs m).length ∧
      Loaded l xs c.machine.mem ∧ lw c.machine.mem l.array_B_size = BitVec.ofNat 32 (others xs m).length := by
  have hlt := h.length_lt
  obtain ⟨s₁, hload₁, hq₁⟩ := load_eq h.size
  obtain ⟨s₂, hshow, hq₂⟩ := showArray_spec hlt hfuel s₁ l.array_A ['A']
  have h₂ : Loaded l xs s₂.mem := hq₂.mem ▸ hq₁.mem ▸ h
  obtain ⟨s₃, hload₃, hq₃⟩ := load_eq h₂.size
  have h₃ : Loaded l xs s₃.mem := hq₃.mem ▸ h₂
  obtain ⟨⟨w, s₄⟩, hmin, hw, hq₄⟩ := getArrayMin_spec h₃.elements hm.ne_nil hlt hfuel
  obtain rfl : w = m := hw.unique hm
  have h₄ : Loaded l xs s₄.mem := hq₄.mem ▸ h₃
  obtain ⟨s₅, hload₅, hq₅⟩ := load_eq h₄.size
  have h₅ : Loaded l xs s₅.mem := hq₅.mem ▸ h₄
  obtain ⟨⟨n, s₆⟩, hlen, hn, hq₆⟩ := getLen_spec h₅.elements hm.ne_nil hlt hfuel w
  obtain rfl : n = BitVec.ofNat 32 (others xs w).length := hn
  have h₆ : Loaded l xs s₆.mem := hq₆.mem ▸ h₅
  -- the number of the elements of B is stored, and A stays
  have h₇ := h₆.store_size (BitVec.ofNat 32 (others xs w).length)
  have hB : lw (s₆.store l.array_B_size (BitVec.ofNat 32 (others xs w).length)).mem l.array_B_size =
      BitVec.ofNat 32 (others xs w).length := lw_sw_self _ _ _
  obtain ⟨s₈, hload₈, hq₈⟩ := load_eq (s := s₆.store l.array_B_size (BitVec.ofNat 32 (others xs w).length)) h₇.size
  obtain ⟨s₉, hload₉, hq₉⟩ := load_eq (s := s₈) (hq₈.mem ▸ hB)
  have hmem : s₉.mem = sw s₆.mem l.array_B_size (BitVec.ofNat 32 (others xs w).length) := hq₉.mem.trans hq₈.mem
  refine ⟨⟨w, BitVec.ofNat 32 xs.length, BitVec.ofNat 32 (others xs w).length, s₉⟩, ?_, rfl, rfl,
    hmem ▸ h₇, hmem ▸ hB⟩
  simp only [callFill, hload₁, hshow, hload₃, hmin, hload₅, hlen, hload₈, hload₉, Option.bind_eq_bind,
    Option.bind_some]

/-- **The array program**: B is made of the elements of A that are not its minimum, in their
    order, and `fill_B_array` stays within the two arrays. -/
theorem mainPart_spec {l : Layout} (h : Loaded l xs s.mem) (hm : IsMinimum xs m) (hfuel : xs.length ≤ fuel) :
    ∃ c s₂ s', callFill l fuel s = some c ∧ c.run l fuel = some (c.s0, s₂) ∧ mainPart l fuel s = some s' ∧
      lw s'.mem l.array_B_size = BitVec.ofNat 32 (others xs m).length ∧
      Holds s'.mem l.array_B (others xs m) ∧
      ∃ t, s₂.trace = c.machine.trace ++ t ∧ ∀ x ∈ t, x.Within l xs.length (others xs m).length := by
  obtain ⟨c, hcall, hs0, ha3, hc, hsize⟩ := callFill_spec h hm hfuel
  have hcap := h.length_le
  have hother : (others xs m).length ≤ xs.length := List.length_filter_le _ _
  obtain ⟨s₂, hfill, hfilled⟩ := fillBArray_spec hc.elements hm.ne_nil h.length_le hfuel m c.s0 c.a1
  have hrun : c.run l fuel = some (c.s0, s₂) := by
    rw [FillCall.run, ha3, hs0]
    exact hs0 ▸ hfill
  have hsize₂ : lw s₂.mem l.array_B_size = BitVec.ofNat 32 (others xs m).length :=
    (hfilled.frame _ (by omega) (by omega)).trans hsize
  have hcopied := hfilled.copied
  rw [List.take_length] at hcopied
  obtain ⟨s₃, hload, hq₃⟩ := load_eq hsize₂
  obtain ⟨s', hshow, hq⟩ := showArray_spec (Nat.lt_of_le_of_lt hother h.length_lt) (Nat.le_trans hother hfuel) s₃
    l.array_B ['B']
  have hmem : s'.mem = s₂.mem := hq.mem.trans hq₃.mem
  refine ⟨c, s₂, s', hcall, hrun, ?_, hmem ▸ hsize₂, hmem ▸ hcopied, hfilled.trace⟩
  simp only [mainPart, hcall, hrun, hload, hshow, Option.bind_eq_bind, Option.bind_some]

/-! ## The tester -/

/-- A row of `sw` instructions. -/
def storeWords (m : Ram) (a : Word) : List Word → Ram
  | [] => m
  | x :: xs => storeWords (sw m a x) (a + 4) xs

/-- The `store_test_data` routines. -/
def storeTestData (l : Layout) (xs : List Word) (m : Ram) : Ram :=
  sw (storeWords m l.array_A xs) l.array_A_size (BitVec.ofNat 32 xs.length)

theorem lw_storeWords {base : Word} {n k : ℕ} (hfits : FitsIn base n) (hk : k < n) (hi : i + xs.length ≤ n) (m : Ram) :
    lw (storeWords m (elt base i) xs) (elt base k) =
      if h : i ≤ k ∧ k - i < xs.length then xs[k - i] else lw m (elt base k) := by
  induction xs generalizing i m with
  | nil => rw [storeWords, dif_neg (by simp)]
  | cons x xs ih =>
    rw [List.length_cons] at hi
    rw [storeWords, elt_succ, ih (by omega), lw_sw_elt hfits (by omega) hk]
    rcases Nat.lt_trichotomy k i with hlt | rfl | hgt
    · rw [dif_neg (by omega), if_neg (by omega), dif_neg (by omega)]
    · rw [dif_neg (by omega), if_pos rfl, dif_pos ⟨Nat.le_refl k, by simp⟩]
      simp
    · have hsub : k - i = (k - (i + 1)) + 1 := by omega
      by_cases hin : k - (i + 1) < xs.length
      · rw [dif_pos ⟨hgt, hin⟩, dif_pos ⟨by omega, by simp; omega⟩]
        simp [hsub]
      · rw [dif_neg (by omega), if_neg (by omega), dif_neg (by simp; omega)]

/-- Every array that there is room for can be loaded. -/
theorem loaded_storeTestData (l : Layout) (hlen : xs.length ≤ l.capacity) (mem : Ram) :
    Loaded l xs (storeTestData l xs mem) := by
  refine ⟨hlen, lw_sw_self _ _ _, fun i hi => ?_⟩
  have hstore : lw (storeWords mem (elt l.array_A 0) xs) (elt l.array_A i) = _ :=
    lw_storeWords l.fits (by omega) (by omega) mem
  rw [elt_zero, dif_pos ⟨Nat.zero_le i, by simpa using hi⟩] at hstore
  rw [storeTestData, Layout.array_A_size, lw_sw_elt l.fits (by omega) (by omega), if_neg (by omega), hstore]
  simp

/-- The array of `store_test_data4`. -/
def testData4 : List Word := [0, -1, -2, -3, -4]

theorem mainPart_spec_testData4 : ∃ s', mainPart .source 5
      { mem := storeTestData .source testData4 fun _ => 0, trace := [], stack := [], console := [] } = some s' ∧
    lw s'.mem Layout.source.array_B_size = 4 ∧ Holds s'.mem Layout.source.array_B [0, -1, -2, -3] := by
  have hmin : IsMinimum testData4 (-4) := ⟨by simp [testData4], by simp [testData4]⟩
  have hothers : others testData4 (-4) = [0, -1, -2, -3] := by decide
  obtain ⟨-, -, s', -, -, hrun, hsize, hB, -⟩ := mainPart_spec
    (s := { mem := storeTestData .source testData4 fun _ => 0, trace := [], stack := [], console := [] })
    (loaded_storeTestData .source (by decide) _) hmin (by decide : testData4.length ≤ 5)
  rw [hothers] at hsize hB
  exact ⟨s', hrun, hsize, hB⟩

end Minimum
