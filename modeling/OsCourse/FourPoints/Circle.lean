/-
  Four points (IDZ2), over the rationals: the functions of geomlib.asm, and the part of
  `solve` that finds the circle through three points.
-/
import Mathlib.Algebra.Order.Field.Rat
import OsCourse.Lib.Circles

namespace FourPoints

open Point

/-- The labels `p1x`, `p1y`, .., `p4y`. -/
structure Points where
  p1 : Point ℚ
  p2 : Point ℚ
  p3 : Point ℚ
  p4 : Point ℚ
  deriving DecidableEq

/-- `fdiv.d`; `none` for a division by zero. -/
def div (a b : ℚ) : Option ℚ := if b = 0 then none else some (a / b)

/-! ## geomlib.asm -/

/-- The square of the distance, without the `fsqrt.d`. -/
def distance (x0 y0 x1 y1 : ℚ) : ℚ := (x0 - x1) * (x0 - x1) + (y0 - y1) * (y0 - y1)

/-- `k` and `c` of the line `y = kx + c` through two points. -/
def functionOfLine (x0 y0 x1 y1 : ℚ) : Option (ℚ × ℚ) :=
  (div (y1 - y0) (x1 - x0)).map fun k => (k, y0 - k * x0)

/-- `k'` and `c'` of the line `y = k'x + c'` that is perpendicular to `y = kx + c` at `x`. -/
def functionOfPerpendicularLine (k c x : ℚ) : Option (ℚ × ℚ) :=
  (div 1 k).map fun k' => (-k', x * k + c + x * k')

/-- The point where two lines meet. -/
def linearFunctionsIntersection (k0 c0 k1 c1 : ℚ) : Option (ℚ × ℚ) :=
  (div (c0 - c1) (k1 - k0)).map fun x => (x, x * k0 + c0)

def meanDouble (x0 x1 : ℚ) : ℚ := (x0 + x1) / 2

/-! ## The circle -/

/-- What `solve` prints. -/
inductive Verdict where
  /-- `yes! because this is triangle` -/
  | yesTriangle
  /-- `yes! because input has same points` -/
  | precisionYes
  /-- `yes!`, with the centre and the (squared) radius -/
  | yes (x y r : ℚ)
  /-- `no(` -/
  | no
  deriving DecidableEq

/-- The part of `solve` from `find 2 sides of triangle` on. -/
def circle (p : Points) : Option Verdict :=
  (functionOfLine p.p1.x p.p1.y p.p2.x p.p2.y).bind fun (k1, c1) =>
    (functionOfLine p.p1.x p.p1.y p.p3.x p.p3.y).bind fun (k2, c2) =>
      (functionOfPerpendicularLine k1 c1 (meanDouble p.p1.x p.p2.x)).bind fun (k1', c1') =>
        (functionOfPerpendicularLine k2 c2 (meanDouble p.p1.x p.p3.x)).bind fun (k2', c2') =>
          (linearFunctionsIntersection k1' c1' k2' c2').map fun (x, y) =>
            let r := distance x y p.p1.x p.p1.y
            if distance x y p.p4.x p.p4.y = r then .yes x y r else .no

/-! ## What is found -/

theorem div_of_ne {a b : ℚ} (h : b ≠ 0) : div a b = some (a / b) := if_neg h

theorem div_zero (a : ℚ) : div a 0 = none := if_pos rfl

theorem distance_eq (p q : Point ℚ) : distance p.x p.y q.x q.y = distSq p q := by
  unfold distance distSq
  ring

/-- The perpendicular bisector of two points on a line that is not parallel to an axis. -/
theorem exists_bisector {p q : Point ℚ} (hx : p.x ≠ q.x) (hy : p.y ≠ q.y) : ∃ k c k' c',
    functionOfLine p.x p.y q.x q.y = some (k, c) ∧
      functionOfPerpendicularLine k c (meanDouble p.x q.x) = some (k', c') ∧
        k' * (q.y - p.y) = -(q.x - p.x) ∧ ∀ o : Point ℚ, o.y = o.x * k' + c' ↔ distSq p o = distSq q o := by
  have hx' : q.x - p.x ≠ 0 := sub_ne_zero.2 (Ne.symm hx)
  have hy' : q.y - p.y ≠ 0 := sub_ne_zero.2 (Ne.symm hy)
  have hk : (q.y - p.y) / (q.x - p.x) ≠ 0 := div_ne_zero hy' hx'
  refine ⟨_, _, _, _, by rw [functionOfLine, div_of_ne hx', Option.map_some],
    by rw [functionOfPerpendicularLine, div_of_ne hk, Option.map_some], ?_, fun o => ?_⟩
  · field_simp
  · have hmul : (o.y - (o.x * -(1 / ((q.y - p.y) / (q.x - p.x))) +
        (meanDouble p.x q.x * ((q.y - p.y) / (q.x - p.x)) + (p.y - (q.y - p.y) / (q.x - p.x) * p.x) +
          meanDouble p.x q.x * (1 / ((q.y - p.y) / (q.x - p.x)))))) * (2 * (q.y - p.y)) =
        2 * ((q.x - p.x) * (o.x - p.x) + (q.y - p.y) * (o.y - p.y)) - distSq q p := by
      unfold meanDouble distSq
      field_simp
      ring
    rw [equidistant_iff, ← sub_eq_zero, ← sub_eq_zero (b := distSq q p), ← hmul, mul_eq_zero,
      or_iff_left (mul_ne_zero two_ne_zero hy')]

/-- Where a circle is looked for, there is a point of another abscissa and another ordinate
    twice. -/
structure Points.Slanted (p : Points) : Prop where
  x2 : p.p1.x ≠ p.p2.x
  y2 : p.p1.y ≠ p.p2.y
  x3 : p.p1.x ≠ p.p3.x
  y3 : p.p1.y ≠ p.p3.y

/-- The bisectors of two sides, and their slopes: they are parallel exactly if the points are
    on a line, and else they meet in the centre. -/
theorem exists_bisectors {p : Points} (h : p.Slanted) : ∃ k1 c1 k2 c2 k1' c1' k2' c2',
    functionOfLine p.p1.x p.p1.y p.p2.x p.p2.y = some (k1, c1) ∧
      functionOfLine p.p1.x p.p1.y p.p3.x p.p3.y = some (k2, c2) ∧
        functionOfPerpendicularLine k1 c1 (meanDouble p.p1.x p.p2.x) = some (k1', c1') ∧
          functionOfPerpendicularLine k2 c2 (meanDouble p.p1.x p.p3.x) = some (k2', c2') ∧
            linearFunctionsIntersection k1' c1' k2' c2' =
              if cross p.p1 p.p2 p.p3 = 0 then none
              else some ((circumcentre p.p1 p.p2 p.p3).x, (circumcentre p.p1 p.p2 p.p3).y) := by
  obtain ⟨k1, c1, k1', c1', hline1, hperp1, hslope1, hon1⟩ := exists_bisector h.x2 h.y2
  obtain ⟨k2, c2, k2', c2', hline2, hperp2, hslope2, hon2⟩ := exists_bisector h.x3 h.y3
  refine ⟨k1, c1, k2, c2, k1', c1', k2', c2', hline1, hline2, hperp1, hperp2, ?_⟩
  have hy2 : p.p2.y - p.p1.y ≠ 0 := sub_ne_zero.2 (Ne.symm h.y2)
  have hy3 : p.p3.y - p.p1.y ≠ 0 := sub_ne_zero.2 (Ne.symm h.y3)
  have hcross : (k2' - k1') * ((p.p2.y - p.p1.y) * (p.p3.y - p.p1.y)) = cross p.p1 p.p2 p.p3 := by
    unfold cross
    linear_combination (p.p2.y - p.p1.y) * hslope2 - (p.p3.y - p.p1.y) * hslope1
  rw [linearFunctionsIntersection]
  by_cases hk : k2' - k1' = 0
  · rw [hk, div_zero, if_pos (by rw [← hcross, hk, zero_mul]), Option.map_none]
  · have hne : cross p.p1 p.p2 p.p3 ≠ 0 := by
      rw [← hcross]
      exact mul_ne_zero hk (mul_ne_zero hy2 hy3)
    -- the point where the bisectors meet is the centre
    have ho : (⟨(c1' - c2') / (k2' - k1'), (c1' - c2') / (k2' - k1') * k1' + c1'⟩ : Point ℚ) =
        circumcentre p.p1 p.p2 p.p3 := by
      refine (eq_circumcentre_iff two_ne_zero hne).1 ⟨(hon1 _).1 rfl, (hon2 _).1 ?_⟩
      show (c1' - c2') / (k2' - k1') * k1' + c1' = (c1' - c2') / (k2' - k1') * k2' + c2'
      linear_combination (-1 : ℚ) * div_mul_cancel₀ (c1' - c2') hk
    rw [div_of_ne hk, if_neg hne, ← ho, Option.map_some]

/-- **The circle through three points is found**, unless they are on a line: then the
    bisectors are parallel, and a division by zero happens. -/
theorem circle_eq {p : Points} (h : p.Slanted) : circle p =
    if cross p.p1 p.p2 p.p3 = 0 then none
    else
      let o := circumcentre p.p1 p.p2 p.p3
      some (if distSq o p.p4 = distSq o p.p1 then .yes o.x o.y (distSq o p.p1) else .no) := by
  obtain ⟨k1, c1, k2, c2, k1', c1', k2', c2', hline1, hline2, hperp1, hperp2, hmeet⟩ := exists_bisectors h
  simp only [circle, hline1, hline2, hperp1, hperp2, hmeet, Option.bind_some]
  by_cases hcol : cross p.p1 p.p2 p.p3 = 0
  · rw [if_pos hcol, if_pos hcol, Option.map_none]
  · rw [if_neg hcol, if_neg hcol, Option.map_some]
    simp only [distance_eq]

end FourPoints
