/-
  The processes that compute factorials and Fibonacci numbers (dz3), and their tests for overflow.
-/
import Mathlib.Data.Nat.Factorial.Basic
import Mathlib.Data.Nat.Fib.Basic
import OsCourse.Lib.Text
import OsCourse.Lib.While

namespace Compute

open While

/-! ## The processes -/

/-- `uint64_t` -/
abbrev U64 := BitVec 64

/-- `%llu` of `printf` -/
def fmtU64 (x : U64) : Text := Nat.toDigits 10 x.toNat

/-- What a process prints, its exit status, and the value of `i` if a test for overflow has fired. -/
structure Exit where
  text : Text
  status : ℕ
  fired : Option ℕ
  deriving DecidableEq

/-- The variables of the first loop. -/
structure Product where
  i : ℕ
  fact : U64

/-- A round of the loop of the child. -/
def multiply (arg : ℤ) (s : Product) : Product ⊕ Exit :=
  if (s.i : ℤ) ≤ arg then
    let prev := s.fact
    let fact := s.fact * BitVec.ofNat 64 s.i
    if fact / BitVec.ofNat 64 s.i ≠ prev then
      .inr { text := "overflow happend in factorial computing\n".toList, status := 1, fired := some s.i }
    else .inl { i := s.i + 1, fact := fact }
  else .inr { text := "factorial: ".toList ++ fmtU64 s.fact ++ ['\n'], status := 0, fired := none }

/-- The variables of the second loop. -/
structure Sum where
  i : ℕ
  a : U64
  b : U64
  c : U64

/-- A round of the loop of the parent. -/
def add (arg : ℤ) (s : Sum) : Sum ⊕ Exit :=
  if (s.i : ℤ) < arg then
    let prev := s.c
    let c := s.a + s.b
    let a := s.b
    let b := c
    if c < prev then
      .inr { text := "overflow happend in fibbonacci computing\n".toList, status := 1, fired := some s.i }
    else .inl { i := s.i + 1, a := a, b := b, c := c }
  else .inr { text := "fibonacci: ".toList ++ fmtU64 s.c ++ ['\n'], status := 0, fired := none }

/-- The two processes. -/
inductive Process
  | factorial
  | fibonacci
  deriving DecidableEq

/-- `main`, up to the exit of the process. -/
def main (fuel : ℕ) (arg : ℤ) (p : Process) : Option Exit :=
  if arg < 0 then some { text := "program argument must be positive\n".toList, status := 1, fired := none }
  else
    match p with
    | .factorial => run (multiply arg) fuel { i := 2, fact := 1 }
    | .fibonacci =>
      if arg = 0 then some { text := "fibonacci: 0\n".toList, status := 0, fired := none }
      else if arg = 1 then some { text := "fibonacci: 1\n".toList, status := 0, fired := none }
      else run (add arg) fuel { i := 1, a := 0, b := 1, c := 0 }

/-- The process exits like this. -/
def Exits (arg : ℤ) (p : Process) (e : Exit) : Prop := ∃ fuel, main fuel arg p = some e

/-! ## Exact results -/

/-- The number that a process is to print. -/
def Process.exact : Process → ℕ → ℕ
  | .factorial => Nat.factorial
  | .fibonacci => Nat.fib

/-- Step `i` of a loop computes this member of the sequence. -/
def Process.member : Process → ℕ → ℕ
  | .factorial, i => i
  | .fibonacci, i => i + 1

/-- The line with the result. -/
def Process.result : Process → ℕ → Text
  | .factorial, n => "factorial: ".toList ++ Nat.toDigits 10 n ++ ['\n']
  | .fibonacci, n => "fibonacci: ".toList ++ Nat.toDigits 10 n ++ ['\n']

def Process.overflow : Process → Text
  | .factorial => "overflow happend in factorial computing\n".toList
  | .fibonacci => "overflow happend in fibbonacci computing\n".toList

/-- Step `i` is the first one whose exact result does not fit. -/
def Process.FirstBig (p : Process) (i : ℕ) : Prop :=
  2 ^ 64 ≤ p.exact (p.member i) ∧ ∀ j < i, p.exact (p.member j) < 2 ^ 64

/-- What a process is for. -/
def Computes (arg : ℤ) (p : Process) : Prop :=
  (p.exact arg.toNat < 2 ^ 64 → Exits arg p { text := p.result (p.exact arg.toNat), status := 0, fired := none }) ∧
    (2 ^ 64 ≤ p.exact arg.toNat →
      ∃ i, p.FirstBig i ∧ p.member i ≤ arg.toNat ∧ Exits arg p { text := p.overflow, status := 1, fired := some i })

/-! ## The tests -/

/-- **The test of a product**: wrapped division gives back the factor exactly if nothing has been
    lost. -/
theorem div_ne_iff {x m : ℕ} (hx : x < 2 ^ 64) (hm : 0 < m) (hm' : m < 2 ^ 64) :
    BitVec.ofNat 64 x * BitVec.ofNat 64 m / BitVec.ofNat 64 m ≠ BitVec.ofNat 64 x ↔ 2 ^ 64 ≤ x * m := by
  have hwrap : BitVec.ofNat 64 x * BitVec.ofNat 64 m / BitVec.ofNat 64 m = BitVec.ofNat 64 x ↔
      x * m % 2 ^ 64 / m = x := by
    rw [← BitVec.toNat_inj, BitVec.toNat_udiv, BitVec.toNat_mul, BitVec.toNat_ofNat, BitVec.toNat_ofNat,
      Nat.mod_eq_of_lt hx, Nat.mod_eq_of_lt hm']
  rw [ne_eq, hwrap, ← Nat.not_lt]
  refine not_congr ?_
  constructor
  · intro h
    have hle := Nat.div_mul_le_self (x * m % 2 ^ 64) m
    rw [h] at hle
    exact Nat.lt_of_le_of_lt hle (Nat.mod_lt _ (by decide))
  · intro h
    rw [Nat.mod_eq_of_lt h, Nat.mul_div_cancel _ hm]

/-- **The test of a sum**: it has been wrapped exactly if it is less than a summand. -/
theorem add_lt_iff {x y : ℕ} (hx : x < 2 ^ 64) (hy : y < 2 ^ 64) :
    BitVec.ofNat 64 x + BitVec.ofNat 64 y < BitVec.ofNat 64 y ↔ 2 ^ 64 ≤ x + y := by
  rw [BitVec.lt_def, BitVec.toNat_add, BitVec.toNat_ofNat, BitVec.toNat_ofNat, Nat.mod_eq_of_lt hx,
    Nat.mod_eq_of_lt hy]
  omega

theorem fmtU64_ofNat {n : ℕ} (h : n < 2 ^ 64) : fmtU64 (BitVec.ofNat 64 n) = Nat.toDigits 10 n := by
  rw [fmtU64, BitVec.toNat_ofNat, Nat.mod_eq_of_lt h]

/-! ## The loops -/

variable {n k : ℕ}

/-- The product of the numbers up to `k` has been computed. -/
structure Product.Holds (k : ℕ) (s : Product) : Prop where
  i : s.i = k + 1
  fact : s.fact = BitVec.ofNat 64 k.factorial
  fits : k.factorial < 2 ^ 64

theorem lt_of_factorial_lt (h : k.factorial < 2 ^ 64) : k < 21 := by
  by_contra hk
  have hle := Nat.factorial_le (Nat.not_lt.1 hk)
  have hbig : 2 ^ 64 ≤ (21).factorial := by decide
  omega

theorem Product.Holds.round {s : Product} (h : s.Holds k) (hk : k < n) :
    ((k + 1).factorial < 2 ^ 64 ∧ ∃ s', multiply n s = .inl s' ∧ s'.Holds (k + 1)) ∨
      ¬ (k + 1).factorial < 2 ^ 64 ∧
        multiply n s = .inr { text := Process.factorial.overflow, status := 1, fired := some (k + 1) } := by
  obtain ⟨i, fact⟩ := s
  obtain ⟨rfl, rfl, hfits⟩ := h
  have hlt : k + 1 < 2 ^ 64 := by
    have hk21 := lt_of_factorial_lt hfits
    omega
  have hprod : k.factorial * (k + 1) = (k + 1).factorial := by rw [Nat.factorial_succ, Nat.mul_comm]
  have htest := div_ne_iff hfits (Nat.succ_pos k) hlt
  have hcond : ((k + 1 : ℕ) : ℤ) ≤ n := Int.ofNat_le.2 hk
  rw [hprod] at htest
  by_cases hbig : 2 ^ 64 ≤ (k + 1).factorial
  · refine .inr ⟨Nat.not_lt.2 hbig, ?_⟩
    rw [multiply, if_pos hcond]
    exact if_pos (htest.2 hbig)
  · refine .inl ⟨Nat.not_le.1 hbig, ⟨k + 2, BitVec.ofNat 64 (k + 1).factorial⟩, ?_, rfl, rfl, Nat.not_le.1 hbig⟩
    rw [multiply, if_pos hcond, ← hprod, BitVec.ofNat_mul]
    exact if_neg fun h => hbig (htest.1 h)

/-- The members `k - 1` and `k` have been computed. -/
structure Sum.Holds (k : ℕ) (s : Sum) : Prop where
  pos : 0 < k
  i : s.i = k
  a : s.a = BitVec.ofNat 64 (Nat.fib (k - 1))
  b : s.b = BitVec.ofNat 64 (Nat.fib k)
  -- before the first round, `c` is zero
  c : s.c = s.b ∨ k = 1 ∧ s.c = 0
  fits : Nat.fib k < 2 ^ 64

theorem Sum.Holds.round {s : Sum} (h : s.Holds k) (hk : k < n) :
    (Nat.fib (k + 1) < 2 ^ 64 ∧ ∃ s', add n s = .inl s' ∧ s'.Holds (k + 1)) ∨
      ¬ Nat.fib (k + 1) < 2 ^ 64 ∧
        add n s = .inr { text := Process.fibonacci.overflow, status := 1, fired := some k } := by
  obtain ⟨i, a, b, c⟩ := s
  obtain ⟨hpos, hi, ha, hb, hc, hfits⟩ := h
  obtain rfl : k = i := hi.symm
  obtain rfl : a = BitVec.ofNat 64 (Nat.fib (k - 1)) := ha
  obtain rfl : b = BitVec.ofNat 64 (Nat.fib k) := hb
  have hsum : Nat.fib (k - 1) + Nat.fib k = Nat.fib (k + 1) := by
    obtain ⟨j, rfl⟩ := Nat.exists_eq_add_of_lt hpos
    rw [Nat.zero_add, Nat.add_sub_cancel, Nat.fib_add_two]
  have hfits' : Nat.fib (k - 1) < 2 ^ 64 := Nat.lt_of_le_of_lt (Nat.fib_mono (Nat.sub_le k 1)) hfits
  have hcond : (k : ℤ) < n := Int.ofNat_lt.2 hk
  have htest : BitVec.ofNat 64 (Nat.fib (k - 1)) + BitVec.ofNat 64 (Nat.fib k) < c ↔ 2 ^ 64 ≤ Nat.fib (k + 1) := by
    rcases hc with hc | ⟨rfl, hc⟩
    · obtain rfl : c = BitVec.ofNat 64 (Nat.fib k) := hc
      rw [add_lt_iff hfits' hfits, hsum]
    · obtain rfl : c = 0 := hc
      decide
  by_cases hbig : 2 ^ 64 ≤ Nat.fib (k + 1)
  · refine .inr ⟨Nat.not_lt.2 hbig, ?_⟩
    rw [add, if_pos hcond]
    exact if_pos (htest.2 hbig)
  · have hnext := BitVec.ofNat_add (n := 64) (Nat.fib (k - 1)) (Nat.fib k)
    rw [hsum] at hnext
    refine .inl ⟨Nat.not_le.1 hbig, ⟨k + 1, BitVec.ofNat 64 (Nat.fib k), BitVec.ofNat 64 (Nat.fib (k + 1)),
      BitVec.ofNat 64 (Nat.fib (k + 1))⟩, ?_, Nat.succ_pos k, rfl, rfl, rfl, .inl rfl, Nat.not_le.1 hbig⟩
    rw [add, if_pos hcond, hnext]
    exact if_neg fun h => hbig (htest.1 h)

/-! ## The processes compute what they are for -/

theorem Process.exact_mono (p : Process) : Monotone p.exact := by
  cases p with
  | factorial => exact fun _ _ h => Nat.factorial_le h
  | fibonacci => exact Nat.fib_mono

/-- A result that fits has no step before it that does not. -/
theorem computes_of_exits {p : Process}
    (h : (p.exact n < 2 ^ 64 ∧ Exits n p { text := p.result (p.exact n), status := 0, fired := none }) ∨
      ∃ i, p.FirstBig i ∧ p.member i ≤ n ∧ Exits n p { text := p.overflow, status := 1, fired := some i }) :
    Computes n p := by
  rcases h with ⟨hfits, hexit⟩ | ⟨i, hbig, hle, hexit⟩
  · constructor
    · intro _
      exact hexit
    · intro hn
      exact absurd hfits (Nat.not_lt.2 hn)
  · constructor
    · intro hn
      have hlt := Nat.lt_of_le_of_lt (p.exact_mono hle) hn
      exact absurd hlt (Nat.not_lt.2 hbig.1)
    · intro _
      exact ⟨i, hbig, hle, hexit⟩

theorem exits_factorial {e : Exit} (h : Returns (multiply n) { i := 2, fact := 1 } e) : Exits n .factorial e := by
  obtain ⟨fuel, hrun⟩ := h
  refine ⟨fuel, ?_⟩
  rw [main, if_neg (by omega)]
  exact hrun

theorem exits_fibonacci (hn : 1 < n) {e : Exit} (h : Returns (add n) { i := 1, a := 0, b := 1, c := 0 } e) :
    Exits n .fibonacci e := by
  obtain ⟨fuel, hrun⟩ := h
  refine ⟨fuel, ?_⟩
  rw [main, if_neg (by omega)]
  show (if (n : ℤ) = 0 then _ else if (n : ℤ) = 1 then _ else _) = _
  rw [if_neg (by omega), if_neg (by omega)]
  exact hrun

theorem computes_factorial (n : ℕ) : Computes n .factorial := by
  rcases Nat.eq_zero_or_pos n with rfl | hpos
  · exact computes_of_exits (.inl ⟨by decide, exits_factorial ⟨1, rfl⟩⟩)
  have hdone : ∀ s : Product, s.Holds n →
      multiply n s = .inr { text := Process.factorial.result n.factorial, status := 0, fired := none } := by
    rintro ⟨i, fact⟩ ⟨hi, hfact, hfits⟩
    obtain rfl : i = n + 1 := hi
    obtain rfl : fact = BitVec.ofNat 64 n.factorial := hfact
    rw [multiply, if_neg (by simp), fmtU64_ofNat hfits]
    rfl
  have hstart : Product.Holds 1 { i := 2, fact := 1 } := ⟨rfl, rfl, by decide⟩
  refine computes_of_exits ?_
  rcases returns_of_tests (J := Product.Holds) (P := fun k => k.factorial < 2 ^ 64)
      (fun i s hi hs => hs.round hi) hdone hstart hpos with ⟨hret, hfits⟩ | ⟨k, hk, hret, hbig, hfits⟩
  · refine .inl ⟨?_, exits_factorial hret⟩
    rcases Nat.lt_or_eq_of_le hpos with hlt | rfl
    · exact hfits n hlt (Nat.le_refl n)
    · decide
  · refine .inr ⟨k + 1, ⟨Nat.not_lt.1 hbig, fun j hj => ?_⟩, hk, exits_factorial hret⟩
    rcases Nat.lt_or_ge 1 j with hlt | hge
    · exact hfits j hlt (Nat.le_of_lt_succ hj)
    · exact Nat.lt_of_le_of_lt (Nat.factorial_le hge) (by decide)

theorem computes_fibonacci (n : ℕ) : Computes n .fibonacci := by
  rcases Nat.lt_or_ge 1 n with hn | hn
  · have hdone : ∀ s : Sum, s.Holds n →
        add n s = .inr { text := Process.fibonacci.result (Nat.fib n), status := 0, fired := none } := by
      rintro ⟨i, a, b, c⟩ ⟨-, hi, -, hb, hc, hfits⟩
      obtain rfl : n = i := hi.symm
      obtain rfl : b = BitVec.ofNat 64 (Nat.fib n) := hb
      obtain rfl : c = BitVec.ofNat 64 (Nat.fib n) := hc.resolve_right fun h => absurd hn (by omega)
      rw [add, if_neg (by simp), fmtU64_ofNat hfits]
      rfl
    have hstart : Sum.Holds 1 { i := 1, a := 0, b := 1, c := 0 } :=
      ⟨Nat.one_pos, rfl, rfl, rfl, .inr ⟨rfl, rfl⟩, by decide⟩
    refine computes_of_exits ?_
    rcases returns_of_tests (J := Sum.Holds) (P := fun k => Nat.fib k < 2 ^ 64)
        (fun i s hi hs => hs.round hi) hdone hstart (Nat.le_of_lt hn) with ⟨hret, hfits⟩ | ⟨k, hk, hret, hbig, hfits⟩
    · exact .inl ⟨hfits n hn (Nat.le_refl n), exits_fibonacci hn hret⟩
    · refine .inr ⟨k, ⟨Nat.not_lt.1 hbig, fun j hj => ?_⟩, hk, exits_fibonacci hn hret⟩
      rcases Nat.eq_zero_or_pos j with rfl | hpos
      · decide
      · exact hfits (j + 1) (Nat.succ_lt_succ hpos) hj
  · -- the branches before the loop
    refine computes_of_exits (.inl ?_)
    match n, hn with
    | 0, _ => exact ⟨by decide, 0, rfl⟩
    | 1, _ => exact ⟨by decide, 0, rfl⟩

/-- **Both processes print the exact number** if it fits into 64 bits, and report an overflow at
    the first step whose result does not. -/
theorem computes (arg : ℤ) (h : 0 ≤ arg) (p : Process) : Computes arg p := by
  obtain ⟨n, rfl⟩ := Int.eq_ofNat_of_zero_le h
  cases p with
  | factorial => exact computes_factorial n
  | fibonacci => exact computes_fibonacci n

theorem computes_ninetyFour : Computes 94 .factorial ∧ Computes 94 .fibonacci :=
  ⟨computes 94 (by decide) .factorial, computes 94 (by decide) .fibonacci⟩

end Compute
