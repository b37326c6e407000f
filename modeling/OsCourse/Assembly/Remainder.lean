/-
  The remainder of a division by repeated subtraction (seminar 3, mod8.asm).
-/
import OsCourse.Lib.Riscv
import OsCourse.Lib.While
import OsCourse.Lib.Text
import Mathlib.Data.Int.Order.Basic
import Mathlib.Tactic.Ring

namespace Remainder

open Riscv While

/-! ## The program -/

/-- The registers of the loop: `t0` is the rest of `a`, and `t1` is `b`. -/
structure Regs where
  t0 : Word
  t1 : Word

/-- One round of `divs`. -/
def divs (s : Regs) : Regs ⊕ Regs :=
  let t1 := -s.t1
  let t0 := s.t0 + t1
  let t1 := -t1
  if t1.sle t0 then .inl { t0 := t0, t1 := t1 } else .inr { t0 := t0, t1 := t1 }

/-- From `p2` to `resultofprogram`, with at most `fuel` rounds of the loop. -/
def divide (fuel : ℕ) (t0 t1 : Word) : Option Regs :=
  if t1.sle t0 then run divs fuel { t0 := t0, t1 := t1 } else some { t0 := t0, t1 := t1 }

/-- What the program prints before it computes. -/
def prompts : Text := "Input a: Input b: ".toList

/-- `resultofprogram` -/
def resultText (n : ℤ) : Text := prompts ++ ("a % b = ".toList ++ (Text.fmtInt n ++ ['\n']))

/-- `errorcase` -/
def errorText : Text := prompts ++ "error: b = 0\n".toList

/-- What the program prints; `none` if it has not ended after `fuel` rounds of the loop. -/
def mod8 (fuel : ℕ) (a b : Word) : Option Text :=
  if b = 0 then some errorText
  else
    let t2 : Word := if a.slt 0 then -1 else 1
    let t0 := if a.slt 0 then -a else a
    let t1 := if b.slt 0 then -b else b
    (divide fuel t0 t1).map fun r => resultText (r.t0 * t2).toInt

/-- The program ends, and prints the remainder of the division. -/
def Prints (a b : Word) : Prop :=
  ∃ fuel, mod8 fuel a b = some (resultText (a.toInt.sign * (|a.toInt| % |b.toInt|)))

variable {a b : Word} {s : Regs}

/-! ## The loop -/

theorem divs_eq (s : Regs) : divs s =
    if s.t1.sle (s.t0 - s.t1) then .inl { t0 := s.t0 - s.t1, t1 := s.t1 }
    else .inr { t0 := s.t0 - s.t1, t1 := s.t1 } := by
  unfold divs
  simp only [BitVec.neg_neg, ← BitVec.sub_eq_add_neg]

/-- What the loop keeps: `t1` is the divisor, and `t0` is what is left of `n`. -/
structure Left (n d : ℤ) (s : Regs) : Prop where
  divisor : s.t1.toInt = d
  pos : 0 < d
  nonneg : 0 ≤ s.t0.toInt
  rest : s.t0.toInt % d = n % d

theorem Left.sub {n d : ℤ} (h : Left n d s) (hle : d ≤ s.t0.toInt) :
    Left n d { t0 := s.t0 - s.t1, t1 := s.t1 } ∧ (s.t0 - s.t1).toInt = s.t0.toInt - d := by
  have hword := inWord_toInt s.t0
  have hpos := h.pos
  have hsub : (s.t0 - s.t1).toInt = s.t0.toInt - d := by
    rw [BitVec.toInt_sub, h.divisor, bmod_eq]
    unfold InWord at hword ⊢
    omega
  refine ⟨⟨h.divisor, hpos, ?_, ?_⟩, hsub⟩
  · dsimp only
    omega
  · dsimp only
    rw [hsub, Int.sub_emod_right, h.rest]

/-- **The loop leaves the remainder.** -/
theorem divide_eq {n d : ℤ} (h : Left n d s) : ∃ fuel r, divide fuel s.t0 s.t1 = some r ∧ r.t0.toInt = n % d := by
  have hend : ∀ r : Regs, Left n d r → r.t0.toInt < d → r.t0.toInt = n % d := by
    intro r hr hlt
    rw [← hr.rest, Int.emod_eq_of_lt hr.nonneg hlt]
  by_cases hle : d ≤ s.t0.toInt
  · have hloop : ∃ r, Returns divs s r ∧ (Left n d r ∧ r.t0.toInt < d) := by
      let J (s : Regs) : Prop := Left n d s ∧ d ≤ s.t0.toInt
      refine returns_of_variant (J := J) (fun s => s.t0.toInt.toNat) ?_ ⟨h, hle⟩
      rintro s ⟨hs, hle⟩
      obtain ⟨hsub, hval⟩ := hs.sub hle
      have hpos := hs.pos
      rw [divs_eq]
      split_ifs with hmore
      · have hmore := BitVec.sle_iff_toInt_le.1 hmore
        rw [hs.divisor] at hmore
        exact .inr ⟨_, rfl, ⟨hsub, hmore⟩, by dsimp only; omega⟩
      · have hmore := mt BitVec.sle_iff_toInt_le.2 hmore
        rw [hs.divisor] at hmore
        exact .inl ⟨_, rfl, hsub, Int.not_le.1 hmore⟩
    obtain ⟨r, ⟨fuel, hrun⟩, hr⟩ := hloop
    refine ⟨fuel, r, ?_, hend r hr.1 hr.2⟩
    rw [divide, if_pos (BitVec.sle_iff_toInt_le.2 (h.divisor ▸ hle))]
    exact hrun
  · refine ⟨0, s, ?_, hend s h (Int.not_le.1 hle)⟩
    rw [divide, if_neg fun hsle => hle (h.divisor ▸ BitVec.sle_iff_toInt_le.1 hsle)]

/-- With the least word as `t1` the loop is not left. -/
theorem divide_intMin (fuel : ℕ) (t0 : Word) : divide fuel t0 (BitVec.intMin 32) = none := by
  have hle : ∀ t : Word, (BitVec.intMin 32).sle t = true := by
    intro t
    have ht := inWord_toInt t
    have hmin : (BitVec.intMin 32).toInt = -2147483648 := rfl
    rw [BitVec.sle_iff_toInt_le, hmin]
    exact ht.1
  rw [divide, if_pos (hle t0)]
  cases hrun : run divs fuel { t0 := t0, t1 := BitVec.intMin 32 } with
  | none => rfl
  | some r =>
    refine absurd ⟨fuel, hrun⟩ (not_returns_of_invariant (J := fun s : Regs => s.t1 = BitVec.intMin 32) ?_ rfl r)
    rintro ⟨t0, t1⟩ hs
    obtain rfl : t1 = BitVec.intMin 32 := hs
    exact ⟨_, by rw [divs_eq, if_pos (hle _)], rfl⟩

/-! ## The program -/

theorem abs_toInt (ha : a ≠ BitVec.intMin 32) : (if a.slt 0 then -a else a).toInt = |a.toInt| := by
  have hslt : a.slt 0 = true ↔ a.toInt < 0 := BitVec.slt_iff_toInt_lt
  split_ifs with hneg
  · rw [toInt_neg ha, abs_of_neg (hslt.1 hneg)]
  · rw [abs_of_nonneg (Int.not_lt.1 (mt hslt.2 hneg))]

/-- The sign of the result. -/
theorem mul_sign {r : Word} (hr : 0 ≤ r.toInt) (hzero : a.toInt = 0 → r.toInt = 0) :
    (r * if a.slt 0 then -1 else 1).toInt = a.toInt.sign * r.toInt := by
  have hslt : a.slt 0 = true ↔ a.toInt < 0 := BitVec.slt_iff_toInt_lt
  have hword := inWord_toInt r
  have hneg : (-1 : Word).toInt = -1 := rfl
  have hone : (1 : Word).toInt = 1 := rfl
  unfold InWord at hword
  split_ifs with ha
  · rw [toInt_mul, hneg, Int.sign_eq_neg_one_of_neg (hslt.1 ha)]
    · ring
    · rw [hneg]
      exact ⟨by omega, by omega⟩
  · rw [toInt_mul, hone]
    · rcases (Int.not_lt.1 (mt hslt.2 ha)).eq_or_lt with hz | hpos
      · rw [hzero hz.symm]
        ring
      · rw [Int.sign_eq_one_of_pos hpos]
        ring
    · rw [hone]
      exact ⟨by omega, by omega⟩

theorem prints_of_ne (hb : b ≠ 0) (ha' : a ≠ BitVec.intMin 32) (hb' : b ≠ BitVec.intMin 32) : Prints a b := by
  have hne : b.toInt ≠ 0 := fun h => hb (BitVec.eq_of_toInt_eq h)
  have hleft : Left |a.toInt| |b.toInt|
      { t0 := if a.slt 0 then -a else a, t1 := if b.slt 0 then -b else b } :=
    ⟨abs_toInt hb', abs_pos.2 hne, by rw [abs_toInt ha']; exact abs_nonneg _, by rw [abs_toInt ha']⟩
  obtain ⟨fuel, r, hr, hval⟩ := divide_eq hleft
  have hnonneg : 0 ≤ r.t0.toInt := hval ▸ Int.emod_nonneg _ (abs_pos.2 hne).ne'
  refine ⟨fuel, ?_⟩
  rw [mod8, if_neg hb]
  simp only [hr, Option.map_some]
  rw [mul_sign hnonneg, hval]
  intro hzero
  rw [hval, hzero]
  simp

/-- With the least word as divisor the program does not end. -/
theorem mod8_intMin (fuel : ℕ) (a : Word) : mod8 fuel a (BitVec.intMin 32) = none := by
  have hb : (BitVec.intMin 32) ≠ 0 := by decide
  have hneg : (if (BitVec.intMin 32).slt 0 then -BitVec.intMin 32 else BitVec.intMin 32) = BitVec.intMin 32 := by
    decide
  rw [mod8, if_neg hb]
  simp only [hneg, divide_intMin, Option.map_none]

/-- The least word as dividend is less than any divisor, and is printed as it is. -/
theorem mod8_of_intMin (fuel : ℕ) (hb : b ≠ 0) (hb' : b ≠ BitVec.intMin 32) :
    mod8 fuel (BitVec.intMin 32) b = some (resultText (-2147483648)) := by
  have hne : b.toInt ≠ 0 := fun h => hb (BitVec.eq_of_toInt_eq h)
  have hneg : (if (BitVec.intMin 32).slt 0 then -BitVec.intMin 32 else BitVec.intMin 32) = BitVec.intMin 32 := by
    decide
  have hnsle : ¬ (if b.slt 0 then -b else b).sle (BitVec.intMin 32) = true := by
    have hpos := abs_pos.2 hne
    have hmin : (BitVec.intMin 32).toInt = -2147483648 := rfl
    rw [BitVec.sle_iff_toInt_le, abs_toInt hb', hmin]
    omega
  rw [mod8, if_neg hb]
  simp only [hneg, divide, if_neg hnsle, Option.map_some]
  rfl

theorem resultText_inj {m n : ℤ} (h : resultText m = resultText n) : m = n := by
  have hfmt : Text.fmtInt m ++ ['\n'] = Text.fmtInt n ++ ['\n'] := by
    simpa only [resultText, List.append_cancel_left_eq] using h
  have hstop : Text.NoDigit ['\n'] := by simp [Text.NoDigit]
  have hm := Text.scanInt_fmtInt m hstop
  rw [hfmt, Text.scanInt_fmtInt n hstop] at hm
  simpa using hm.symm

/-- **When the program prints the remainder.** -/
theorem prints_iff (hb : b ≠ 0) (a : Word) : Prints a b ↔ a ≠ BitVec.intMin 32 ∧ b ≠ BitVec.intMin 32 := by
  constructor
  · rintro ⟨fuel, hprints⟩
    have hb' : b ≠ BitVec.intMin 32 := by
      rintro rfl
      rw [mod8_intMin] at hprints
      cases hprints
    refine ⟨?_, hb'⟩
    rintro rfl
    rw [mod8_of_intMin fuel hb hb'] at hprints
    have hval := resultText_inj (Option.some.inj hprints)
    have hne : b.toInt ≠ 0 := fun h => hb (BitVec.eq_of_toInt_eq h)
    have hlt := Int.emod_lt_of_pos |(BitVec.intMin 32).toInt| (abs_pos.2 hne)
    -- the absolute value of the divisor is less than 2^31
    have hle : |b.toInt| < 2147483648 := by
      have hword := inWord_toInt b
      have hmin : b.toInt ≠ -2147483648 := fun h => hb' (BitVec.eq_of_toInt_eq h)
      unfold InWord at hword
      rw [abs_lt]
      omega
    have hsign : (BitVec.intMin 32).toInt.sign = -1 := rfl
    rw [hsign] at hval
    omega
  · rintro ⟨ha', hb'⟩
    exact prints_of_ne hb ha' hb'

theorem prints_iff_seven : Prints (BitVec.ofInt 32 (-7)) 3 :=
  (prints_iff (b := 3) (by decide) (BitVec.ofInt 32 (-7))).2 ⟨by decide, by decide⟩

/-- The remainder of the least word by three. -/
theorem not_prints : ¬ ∀ a b : Word, b ≠ 0 → Prints a b := by
  intro hall
  obtain ⟨fuel, hprints⟩ := hall (BitVec.intMin 32) 3 (by decide)
  rw [mod8_of_intMin fuel (by decide) (by decide)] at hprints
  have hval := resultText_inj (Option.some.inj hprints)
  revert hval
  decide

end Remainder
