/-
  The sum of an array with a check for overflow, and the numbers of its odd and even elements
  (seminar 4, sum_of_array8.asm and sum_of_array_and_odd10.asm).
-/
import Mathlib.Algebra.Ring.Int.Defs
import OsCourse.Assembly.Minimum

namespace ArraySum

open Riscv While
open Minimum (Holds)

/-! ## The programs -/

/-- What one system call prints. -/
inductive Output
  | string (t : Text)
  | int (n : Word)
  deriving DecidableEq

def result1 : Text := "after counting ".toList
def result2 : Text := " elements, sum of array = ".toList
def endl : Text := "\n".toList
def even : Text := "even numbers in array : ".toList
def odd : Text := "odd numbers in array : ".toList

/-- The registers of `fill`, the memory, and the numbers that are still to be typed. -/
structure FillRegs where
  t0 : Word
  t1 : Word
  mem : Ram
  stdin : List Word

/-- A round of `fill`; `none` when there is no number to read. -/
def fill (t2 : Word) (r : FillRegs) : FillRegs ⊕ Option Ram :=
  let t1 := r.t1 + 1
  match r.stdin with
  | [] => .inr none
  | a0 :: stdin =>
    let mem := sw r.mem r.t0 a0
    let t0 := r.t0 + 4
    if t1.ult t2 then .inl { t0 := t0, t1 := t1, mem := mem, stdin := stdin } else .inr (some mem)

/-- The array is filled with `t2` numbers. -/
def fillArray (fuel : ℕ) (m : Ram) (arr t2 : Word) (stdin : List Word) : Option Ram :=
  (run (fill t2) fuel { t0 := arr, t1 := 0, mem := m, stdin := stdin }).join

/-- The registers of `sum`. -/
structure SumRegs where
  t0 : Word
  t1 : Word
  t3 : Word

/-- A round of `sum`, which goes to `final` when an addition overflows or when there is no
    element left. -/
def sum (m : Ram) (t2 : Word) (r : SumRegs) : SumRegs ⊕ SumRegs :=
  let a0 := lw m r.t0
  let a1 := a0 + r.t3
  -- `bltz a0 less_zero`, and the test of either side
  if if a0.slt 0 then r.t3.slt a1 else a1.slt r.t3 then .inr r
  else
    let t1 := r.t1 + 1
    let t3 := a1
    let t0 := r.t0 + 4
    if t1.ult t2 then .inl { t0 := t0, t1 := t1, t3 := t3 } else .inr { t0 := t0, t1 := t1, t3 := t3 }

/-- From the preparation for summing to `final`, with `t2` elements from `arr` on. -/
def sumArray (fuel : ℕ) (m : Ram) (arr t2 : Word) : Option SumRegs :=
  run (sum m t2) fuel { t0 := arr, t1 := 0, t3 := 0 }

/-- `final` -/
def showSum (r : SumRegs) : List Output := [.string result1, .int r.t1, .string result2, .int r.t3]

/-- What `sum_of_array8` prints when the array has been filled. -/
def sumOfArray8 (fuel : ℕ) (m : Ram) (arr t2 : Word) : Option (List Output) :=
  (sumArray fuel m arr t2).map showSum

/-- A round of `odd_counting`, where `inc_odd` goes back to `continue2`. -/
def oddCounting (m : Ram) (t2 : Word) (r : SumRegs) : SumRegs ⊕ SumRegs :=
  let t1 := r.t1 + 1
  let a0 := lw m r.t0
  let a1 := a0 &&& 1
  let t3 := if a1 = 0 then r.t3 + 1 else r.t3
  let t0 := r.t0 + 4
  if t1.ult t2 then .inl { t0 := t0, t1 := t1, t3 := t3 } else .inr { t0 := t0, t1 := t1, t3 := t3 }

def countArray (fuel : ℕ) (m : Ram) (arr t2 : Word) : Option SumRegs :=
  run (oddCounting m t2) fuel { t0 := arr, t1 := 0, t3 := 0 }

/-- The output of the two counts. -/
def showCounts (t2 t3 : Word) : List Output :=
  [.string odd, .int t3, .string endl, .string even, .int (t2 - t3)]

/-- What `sum_of_array_and_odd10` prints when the array has been filled. -/
def sumOfArrayAndOdd10 (fuel : ℕ) (m : Ram) (arr t2 : Word) : Option (List Output) := do
  let r ← sumArray fuel m arr t2
  let c ← countArray fuel m arr t2
  some (showSum r ++ [.string endl] ++ showCounts t2 c.t3)

variable {m : Ram} {arr : Word} {xs : List Word} {fuel : ℕ}

/-- **The filling loop** puts the numbers into the array. -/
theorem fillArray_spec (hne : xs ≠ []) (hfits : FitsIn arr xs.length) (hfuel : xs.length ≤ fuel) (m : Ram) :
    ∃ m', fillArray fuel m arr (BitVec.ofNat 32 xs.length) xs = some m' ∧ Holds m' arr xs := by
  have hsize : arr.toNat + 4 * xs.length ≤ 2 ^ 32 := hfits
  have hloop : ∃ r, run (fill (BitVec.ofNat 32 xs.length)) fuel { t0 := arr, t1 := 0, mem := m, stdin := xs } = some r ∧
      ∃ m', r = some m' ∧ Holds m' arr xs := by
    refine run_of_elements (i := 0) (n := xs.length) (J := fun i (r : FillRegs) => r.t0 = elt arr i ∧
      r.t1 = BitVec.ofNat 32 i ∧ r.stdin = xs.drop i ∧ Holds r.mem arr (xs.take i)) ?_
      ⟨(elt_zero arr).symm, rfl, rfl, fun i hi => absurd hi (by simp)⟩ (List.length_pos_iff.2 hne) (by omega)
    rintro i ⟨t0, t1, m, stdin⟩ hi ⟨rfl, rfl, rfl, hm⟩
    have hdrop : xs.drop i = xs[i] :: xs.drop (i + 1) := List.drop_eq_getElem_cons hi
    have hnext : Holds (sw m (elt arr i) xs[i]) arr (xs.take (i + 1)) := by
      intro j hj
      rw [List.length_take_of_le hi] at hj
      rw [lw_sw_elt hfits hi (by omega)]
      split_ifs with hij
      · simp [hij]
      · have hold := hm j (by rw [List.length_take_of_le (Nat.le_of_lt hi)]; omega)
        rw [hold]
        simp
    rw [fill]
    dsimp only
    rw [hdrop]
    refine ⟨_, _, if_congr (ult_succ (by omega) (by omega)) rfl rfl,
      ⟨elt_succ arr i, ofNat_succ i, rfl, hnext⟩, ?_⟩
    intro hlast
    rw [hlast, List.take_length] at hnext
    exact ⟨_, rfl, hnext⟩
  obtain ⟨-, hrun, m', rfl, hm'⟩ := hloop
  exact ⟨m', by rw [fillArray, hrun]; rfl, hm'⟩

/-! ## The sum -/

/-- The exact sum. -/
def total (xs : List Word) : ℤ := (xs.map BitVec.toInt).sum

theorem total_take_succ {xs : List Word} {i : ℕ} (hi : i < xs.length) :
    total (xs.take (i + 1)) = total (xs.take i) + xs[i].toInt := by
  rw [total, total, List.take_succ_eq_append_getElem hi, List.map_append, List.sum_append, List.map_singleton,
    List.sum_singleton]

/-- The tests of `sum` are exact. -/
theorem overflows_iff (x t : Word) :
    (if x.slt 0 then t.slt (x + t) else (x + t).slt t) = true ↔ ¬ InWord (x.toInt + t.toInt) := by
  have hzero : (0 : Word).toInt = 0 := rfl
  by_cases hneg : x.slt 0 = true
  · rw [if_pos hneg, BitVec.slt_iff_toInt_lt]
    rw [BitVec.slt_iff_toInt_lt, hzero] at hneg
    exact lt_add_toInt_iff hneg
  · rw [if_neg hneg, BitVec.slt_iff_toInt_lt]
    rw [BitVec.slt_iff_toInt_lt, hzero, Int.not_lt] at hneg
    exact add_toInt_lt_iff hneg

/-- After `k` elements: `s` is their exact sum, and no sum on the way was too large. -/
structure SumOf (xs : List Word) (k : ℕ) (s : Word) : Prop where
  le : k ≤ xs.length
  exact : s.toInt = total (xs.take k)
  inWord : ∀ j ≤ k, InWord (total (xs.take j))

theorem SumOf.start (xs : List Word) : SumOf xs 0 0 := by
  refine ⟨Nat.zero_le _, rfl, fun j hj => ?_⟩
  obtain rfl := Nat.le_zero.1 hj
  rw [List.take_zero]
  decide

theorem SumOf.next {i : ℕ} {s : Word} (h : SumOf xs i s) (hi : i < xs.length) (hx : InWord (xs[i].toInt + s.toInt)) :
    SumOf xs (i + 1) (xs[i] + s) := by
  have htotal : (xs[i] + s).toInt = total (xs.take (i + 1)) := by
    rw [toInt_add hx, total_take_succ hi, h.exact, Int.add_comm]
  refine ⟨hi, htotal, fun j hj => ?_⟩
  rcases Nat.le_or_eq_of_le_succ hj with hle | rfl
  · exact h.inWord j hle
  · exact htotal ▸ inWord_toInt _

/-- Where the loop stops: `k` elements have been counted, and only the end of the array or a
    sum that is no 32-bit integer stops it. -/
def StopsAt (xs : List Word) (k : ℕ) (s : Word) : Prop :=
  SumOf xs k s ∧ (k = xs.length ∨ k < xs.length ∧ ¬ InWord (total (xs.take (k + 1))))

/-- **The summing loop** stops with the exact sum of the elements that it has counted. -/
theorem sumArray_spec (h : Holds m arr xs) (hne : xs ≠ []) (hfits : FitsIn arr xs.length) (hfuel : xs.length ≤ fuel) :
    ∃ r, sumArray fuel m arr (BitVec.ofNat 32 xs.length) = some r ∧
      ∃ k, r.t1 = BitVec.ofNat 32 k ∧ StopsAt xs k r.t3 := by
  unfold FitsIn at hfits
  refine run_of_counter (i := 0) (n := xs.length) (J := fun i (r : SumRegs) => r.t0 = elt arr i ∧
    r.t1 = BitVec.ofNat 32 i ∧ SumOf xs i r.t3) ?_ ⟨(elt_zero arr).symm, rfl, .start xs⟩
    (List.length_pos_iff.2 hne) (by omega)
  rintro i ⟨t0, t1, t3⟩ hi ⟨rfl, rfl, hsum⟩
  have hx : lw m (elt arr i) = xs[i] := h i hi
  have hover := overflows_iff xs[i] t3
  rw [sum]
  dsimp only
  rw [hx]
  by_cases hword : InWord (xs[i].toInt + t3.toInt)
  · rw [if_neg (mt hover.1 (not_not.2 hword))]
    have hnext := hsum.next hi hword
    split_ifs with hmore
    · exact .inr ⟨_, rfl, (ult_succ (by omega) (by omega)).1 hmore, elt_succ arr i, ofNat_succ i, hnext⟩
    · have hlast := mt (ult_succ (by omega) (by omega)).2 hmore
      exact .inl ⟨_, rfl, i + 1, ofNat_succ i, hnext, .inl (by omega)⟩
  · -- the element that is too much is not counted
    rw [if_pos (hover.2 hword)]
    refine .inl ⟨_, rfl, i, rfl, hsum, .inr ⟨hi, ?_⟩⟩
    rwa [total_take_succ hi, ← hsum.exact, Int.add_comm]

/-- **`sum_of_array8`** stops with the exact sum of the elements that it has counted, and prints
    the number of them and the sum. -/
theorem sumOfArray8_spec (h : Holds m arr xs) (hne : xs ≠ []) (hfits : FitsIn arr xs.length)
    (hfuel : xs.length ≤ fuel) :
    ∃ k r, sumArray fuel m arr (BitVec.ofNat 32 xs.length) = some r ∧ r.t1 = BitVec.ofNat 32 k ∧
      StopsAt xs k r.t3 ∧ sumOfArray8 fuel m arr (BitVec.ofNat 32 xs.length) =
        some [.string result1, .int (BitVec.ofNat 32 k), .string result2, .int r.t3] := by
  obtain ⟨r, hrun, k, hk, hstop⟩ := sumArray_spec h hne hfits hfuel
  refine ⟨k, r, hrun, hk, hstop, ?_⟩
  rw [sumOfArray8, hrun, Option.map_some, showSum, hk]

/-! ## The counts -/

def IsOdd (x : Word) : Prop := x.toInt % 2 = 1

instance (x : Word) : Decidable (IsOdd x) := inferInstanceAs (Decidable (_ = _))

def numOdd (xs : List Word) : ℕ := xs.countP (IsOdd ·)
def numEven (xs : List Word) : ℕ := xs.countP (¬ IsOdd ·)

theorem numOdd_add_numEven (xs : List Word) : numOdd xs + numEven xs = xs.length := by
  rw [numOdd, numEven, List.length_eq_countP_add_countP (IsOdd ·)]
  simp only [decide_not, decide_eq_true_eq]

/-- **The counting loop** counts the even elements. -/
theorem countArray_spec (h : Holds m arr xs) (hne : xs ≠ []) (hfits : FitsIn arr xs.length)
    (hfuel : xs.length ≤ fuel) :
    ∃ r, countArray fuel m arr (BitVec.ofNat 32 xs.length) = some r ∧ r.t3 = BitVec.ofNat 32 (numEven xs) := by
  unfold FitsIn at hfits
  refine run_of_elements (i := 0) (n := xs.length) (J := fun i (r : SumRegs) => r.t0 = elt arr i ∧
    r.t1 = BitVec.ofNat 32 i ∧ r.t3 = BitVec.ofNat 32 (numEven (xs.take i))) ?_ ⟨(elt_zero arr).symm, rfl, rfl⟩
    (List.length_pos_iff.2 hne) (by omega)
  rintro i ⟨t0, t1, t3⟩ hi ⟨rfl, rfl, rfl⟩
  have hx : lw m (elt arr i) = xs[i] := h i hi
  have hcount : (if xs[i] &&& 1 = 0 then BitVec.ofNat 32 (numEven (xs.take i)) + 1
      else BitVec.ofNat 32 (numEven (xs.take i))) = BitVec.ofNat 32 (numEven (xs.take (i + 1))) := by
    rw [List.take_succ_eq_append_getElem hi, numEven, numEven, List.countP_append, List.countP_singleton, ofNat_succ]
    have heven : xs[i] &&& 1 = 0 ↔ ¬ IsOdd xs[i] := by
      rw [and_one_eq_zero_iff, IsOdd]
      omega
    simp only [heven, decide_eq_true_eq]
    split_ifs <;> rfl
  rw [oddCounting]
  dsimp only
  rw [hx, hcount]
  refine ⟨_, _, if_congr (ult_succ (by omega) (by omega)) rfl rfl, ⟨elt_succ arr i, ofNat_succ i, rfl⟩, ?_⟩
  intro hlast
  rw [hlast, List.take_length]

/-- What is printed: the sum, and the two counts behind their labels. -/
def Prints (fuel : ℕ) (m : Ram) (arr : Word) (xs : List Word) : Prop :=
  ∃ r, sumOfArrayAndOdd10 fuel m arr (BitVec.ofNat 32 xs.length) =
    some (showSum r ++ [.string endl] ++ [.string odd, .int (BitVec.ofNat 32 (numOdd xs)), .string endl,
      .string even, .int (BitVec.ofNat 32 (numEven xs))])

/-- The two numbers behind the labels are those of the other kind. -/
theorem sumOfArrayAndOdd10_spec (h : Holds m arr xs) (hne : xs ≠ []) (hfits : FitsIn arr xs.length)
    (hfuel : xs.length ≤ fuel) :
    ∃ r, sumOfArrayAndOdd10 fuel m arr (BitVec.ofNat 32 xs.length) =
      some (showSum r ++ [.string endl] ++ [.string odd, .int (BitVec.ofNat 32 (numEven xs)), .string endl,
        .string even, .int (BitVec.ofNat 32 (numOdd xs))]) := by
  obtain ⟨r, hsum, -⟩ := sumArray_spec h hne hfits hfuel
  obtain ⟨c, hcount, hc⟩ := countArray_spec h hne hfits hfuel
  have hother : BitVec.ofNat 32 xs.length - BitVec.ofNat 32 (numEven xs) = BitVec.ofNat 32 (numOdd xs) := by
    rw [← numOdd_add_numEven xs, BitVec.ofNat_add, BitVec.add_sub_cancel]
  refine ⟨r, ?_⟩
  simp only [sumOfArrayAndOdd10, hsum, hcount, Option.bind_eq_bind, Option.bind_some, showCounts, hc, hother]

theorem Prints.balanced (hp : Prints fuel m arr xs) (h : Holds m arr xs) (hne : xs ≠ [])
    (hfits : FitsIn arr xs.length) (hfuel : xs.length ≤ fuel) : numOdd xs = numEven xs := by
  obtain ⟨r, hrun⟩ := sumOfArrayAndOdd10_spec h hne hfits hfuel
  obtain ⟨r', hrun'⟩ := hp
  have hall := numOdd_add_numEven xs
  have hsame := Option.some.inj (hrun.symm.trans hrun')
  have hlen : (showSum r ++ [Output.string endl]).length = (showSum r' ++ [Output.string endl]).length := rfl
  have hcounts := (List.append_inj hsame hlen).2
  simp only [List.cons.injEq, Output.int.injEq, true_and, and_true] at hcounts
  have hnat := congrArg BitVec.toNat hcounts.1
  rw [BitVec.toNat_ofNat, BitVec.toNat_ofNat] at hnat
  unfold FitsIn at hfits
  omega

/-- **The printed counts are right if and only if** there are as many odd elements as even ones. -/
theorem prints_iff_balanced (h : Holds m arr xs) (hne : xs ≠ []) (hfits : FitsIn arr xs.length)
    (hfuel : xs.length ≤ fuel) : Prints fuel m arr xs ↔ numOdd xs = numEven xs := by
  constructor
  · intro hp
    exact hp.balanced h hne hfits hfuel
  · intro hsame
    obtain ⟨r, hrun⟩ := sumOfArrayAndOdd10_spec h hne hfits hfuel
    exact ⟨r, by rw [hrun, hsame]⟩

/-! ## Short arrays -/

/-- Where the program has its array, of at most ten elements. -/
def arrAddress : Word := 0x10010070

theorem fitsIn_arrAddress {n : ℕ} (h : n ≤ 10) : FitsIn arrAddress n := by
  have haddr : arrAddress.toNat = 0x10010070 := rfl
  unfold FitsIn
  omega

theorem exists_filled (xs : List Word) (hne : xs ≠ []) (hlen : xs.length ≤ 10) : ∃ m, Holds m arrAddress xs := by
  obtain ⟨m, -, hm⟩ := fillArray_spec hne (fitsIn_arrAddress hlen) (Nat.le_refl _) fun _ => 0
  exact ⟨m, hm⟩

theorem sumOfArray8_spec_overflow : ∃ m k r, Holds m arrAddress [2147483647, 1] ∧
    sumArray 2 m arrAddress 2 = some r ∧ r.t1 = BitVec.ofNat 32 k ∧ StopsAt [2147483647, 1] k r.t3 := by
  obtain ⟨m, hm⟩ := exists_filled [2147483647, 1] (by decide) (by decide)
  obtain ⟨k, r, hrun, hk, hstop, -⟩ :=
    sumOfArray8_spec hm (by decide) (fitsIn_arrAddress (by decide)) (Nat.le_refl 2)
  exact ⟨m, k, r, hm, hrun, hk, hstop⟩

theorem prints_iff_balanced_two : ∃ m, Holds m arrAddress [1, 2] ∧ Prints 2 m arrAddress [1, 2] := by
  obtain ⟨m, hm⟩ := exists_filled [1, 2] (by decide) (by decide)
  exact ⟨m, hm, (prints_iff_balanced hm (by decide) (fitsIn_arrAddress (by decide)) (Nat.le_refl 2)).2 (by decide)⟩

/-- An array with one element, an odd one: a zero is printed behind the label of the odd ones. -/
theorem not_prints_one : ∃ m, Holds m arrAddress [1] ∧ ¬ Prints 1 m arrAddress [1] := by
  obtain ⟨m, hm⟩ := exists_filled [1] (by decide) (by decide)
  refine ⟨m, hm, fun hp => ?_⟩
  have hsame := hp.balanced hm (by decide) (fitsIn_arrAddress (by decide)) (Nat.le_refl 1)
  revert hsame
  decide

end ArraySum
