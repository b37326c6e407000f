/-
  Four points (IDZ2): `data_handler`, `is_triangle` and `solve` of program.asm, and for
  which points the verdict is right.
-/
import Mathlib.Analysis.Real.Sqrt
import OsCourse.FourPoints.Circle

namespace FourPoints

open Point

/-! ## program.asm -/

/-- `swap_double` of the registers of points 2 and 4. -/
def Points.swap24 (p : Points) : Points := { p with p2 := p.p4, p4 := p.p2 }

/-- `swap_double` of the registers of points 3 and 4. -/
def Points.swap34 (p : Points) : Points := { p with p3 := p.p4, p4 := p.p3 }

@[simp] theorem Points.swap24_p1 (p : Points) : p.swap24.p1 = p.p1 := rfl

@[simp] theorem Points.swap24_p2 (p : Points) : p.swap24.p2 = p.p4 := rfl

@[simp] theorem Points.swap24_p3 (p : Points) : p.swap24.p3 = p.p3 := rfl

@[simp] theorem Points.swap24_p4 (p : Points) : p.swap24.p4 = p.p2 := rfl

@[simp] theorem Points.swap34_p1 (p : Points) : p.swap34.p1 = p.p1 := rfl

@[simp] theorem Points.swap34_p2 (p : Points) : p.swap34.p2 = p.p2 := rfl

@[simp] theorem Points.swap34_p3 (p : Points) : p.swap34.p3 = p.p4 := rfl

@[simp] theorem Points.swap34_p4 (p : Points) : p.swap34.p4 = p.p3 := rfl

/-- From `final_if` on. -/
def finalIf (p : Points) : ℕ := if p.p1.y = p.p4.y then 1 else 2

/-- From `y_handler` on. -/
def yHandler (p : Points) : ℕ × Points :=
  let p := if p.p1.y = p.p2.y then p.swap24 else p
  let p := if p.p1.y = p.p3.y then p.swap34 else p
  if p.p1.y = p.p2.y then (2, p)
  else if p.p1.y = p.p3.y then (2, p)
  else (0, p)

/-- The swaps at the beginning of `data_handler`. -/
def swapX (p : Points) : Points :=
  let p := if p.p1.x = p.p2.x then p.swap24 else p
  if p.p1.x = p.p3.x then p.swap34 else p

/-- `data_handler`: the number in `a0`, and the points as they are saved back. -/
def dataHandler (p : Points) : ℕ × Points :=
  let p := swapX p
  if p.p1.x = p.p2.x then (if p.p1.y = p.p2.y then 1 else finalIf p, p)
  else if p.p1.x = p.p3.x then (if p.p1.y = p.p3.y then 1 else finalIf p, p)
  else yHandler p

def isTriangle (p : Points) : Bool :=
  p.p1.x = p.p2.x ∧ p.p1.y = p.p3.y ∧ p.p3.x = p.p4.x ∧ p.p2.y = p.p4.y

/-- What `solve` does with the result of `data_handler`. -/
def conclude (r : ℕ × Points) : Option Verdict :=
  if r.1 = 1 then some .precisionYes
  else if r.1 = 2 then some .no
  else circle r.2

/-- `solve`; `none` for a division by zero. -/
def solve (p : Points) : Option Verdict :=
  if isTriangle p then some .yesTriangle else conclude (dataHandler p)

/-! ## Right verdicts -/

def Verdict.isYes : Verdict → Bool
  | .yesTriangle | .precisionYes | .yes .. => true
  | .no => false

/-- Some circle of the plane passes through all the points. -/
def OnOneCircle (l : List (Point ℚ)) : Prop :=
  ∃ o : Point ℝ, ∃ r : ℝ, 0 < r ∧ ∀ p ∈ l, distSq (p.map (Rat.castHom ℝ)) o = r ^ 2

theorem onOneCircle_iff {l : List (Point ℚ)} : OnOneCircle l ↔ Cocircular l := by
  rw [← cocircular_map (Rat.castHom ℝ)]
  constructor
  · rintro ⟨o, r, hr, hl⟩
    exact ⟨o, r ^ 2, pow_pos hr 2, List.forall_mem_map.2 hl⟩
  · rintro ⟨o, r, hr, hl⟩
    refine ⟨o, √r, Real.sqrt_pos.2 hr, fun p hp => ?_⟩
    rw [Real.sq_sqrt hr.le]
    exact hl _ (List.mem_map_of_mem hp)

/-- The points in the order in which they are given. -/
def Points.toList (p : Points) : List (Point ℚ) := [p.p1, p.p2, p.p3, p.p4]

/-- **The circle core**: for three points that are not on a line, the first of which has
    neither coordinate of the others, no step divides by zero, the bisectors meet in the one
    point that is equidistant from the three, and the fourth point passes the last test
    exactly if it is on their circle. -/
theorem solves_circle (p : Points) (h : p.Slanted) (hcol : ¬ Aligned p.p1 p.p2 p.p3) :
    ∃ k1 c1 k2 c2 k1' c1' k2' c2' x y,
      functionOfLine p.p1.x p.p1.y p.p2.x p.p2.y = some (k1, c1) ∧
      functionOfLine p.p1.x p.p1.y p.p3.x p.p3.y = some (k2, c2) ∧
      functionOfPerpendicularLine k1 c1 (meanDouble p.p1.x p.p2.x) = some (k1', c1') ∧
      functionOfPerpendicularLine k2 c2 (meanDouble p.p1.x p.p3.x) = some (k2', c2') ∧
      linearFunctionsIntersection k1' c1' k2' c2' = some (x, y) ∧
      (∀ o, distSq p.p1 o = distSq p.p2 o ∧ distSq p.p1 o = distSq p.p3 o ↔ o = ⟨x, y⟩) ∧
      circle p = some (if distance x y p.p4.x p.p4.y = distance x y p.p1.x p.p1.y then
        .yes x y (distance x y p.p1.x p.p1.y) else .no) ∧
      (distance x y p.p4.x p.p4.y = distance x y p.p1.x p.p1.y ↔ OnOneCircle p.toList) := by
  obtain ⟨k1, c1, k2, c2, k1', c1', k2', c2', hline1, hline2, hperp1, hperp2, hmeet⟩ := exists_bisectors h
  have hcross : cross p.p1 p.p2 p.p3 ≠ 0 := hcol
  rw [if_neg hcross] at hmeet
  refine ⟨k1, c1, k2, c2, k1', c1', k2', c2', _, _, hline1, hline2, hperp1, hperp2, hmeet,
    fun o => eq_circumcentre_iff two_ne_zero hcol, ?_, ?_⟩
  · rw [circle_eq h, if_neg hcross]
    simp only [distance_eq]
  · rw [onOneCircle_iff, distance_eq, distance_eq, distSq_comm, distSq_comm _ p.p1]
    have hmem : ∀ q ∈ [p.p1, p.p2, p.p3], q ∈ p.toList := by simp [Points.toList]
    rw [cocircular_iff hcol (hmem _ (by simp)) (hmem _ (by simp)) (hmem _ (by simp))]
    obtain ⟨h2, h3⟩ := (eq_circumcentre_iff two_ne_zero hcol).2 rfl
    constructor
    · intro h4 q hq
      simp only [Points.toList, List.mem_cons, List.not_mem_nil, or_false] at hq
      rcases hq with rfl | rfl | rfl | rfl
      · rfl
      · exact h2.symm
      · exact h3.symm
      · exact h4
    · intro hall
      exact hall p.p4 (by simp [Points.toList])

/-- Three corners of a square, and the centre of its circle. -/
theorem solves_circle_tilted : ∃ x y, circle ⟨⟨0, 0⟩, ⟨3, 1⟩, ⟨-1, 3⟩, ⟨2, 4⟩⟩ = some (.yes x y 5) := by
  obtain ⟨_, _, _, _, _, _, _, _, x, y, -, -, -, -, -, ho, hcircle, -⟩ :=
    solves_circle ⟨⟨0, 0⟩, ⟨3, 1⟩, ⟨-1, 3⟩, ⟨2, 4⟩⟩ ⟨by norm_num, by norm_num, by norm_num, by norm_num⟩
      (by norm_num [Aligned, cross])
  obtain ⟨rfl, rfl⟩ := Point.mk.inj ((ho ⟨1, 2⟩).1 (by norm_num [distSq]))
  exact ⟨1, 2, hcircle.trans (by norm_num [distance])⟩

/-- The verdict is reached, and says whether the points are on one circle. -/
def Right (v : Option Verdict) (l : List (Point ℚ)) : Prop := ∃ w, v = some w ∧ (w.isYes ↔ OnOneCircle l)

/-- The other points with the abscissa of the first. -/
def Points.column (p : Points) : List (Point ℚ) := [p.p2, p.p3, p.p4].filter fun q => q.x = p.p1.x

/-- The other points with another abscissa. -/
def Points.offColumn (p : Points) : List (Point ℚ) := [p.p2, p.p3, p.p4].filter fun q => q.x ≠ p.p1.x

/-- The other points with the ordinate of the first. -/
def Points.row (p : Points) : List (Point ℚ) := [p.p2, p.p3, p.p4].filter fun q => q.y = p.p1.y

/-- The other points with another ordinate. -/
def Points.offRow (p : Points) : List (Point ℚ) := [p.p2, p.p3, p.p4].filter fun q => q.y ≠ p.p1.y

/-- The points without a column that are handled right. -/
def RowHandled (p : Points) : Prop :=
  match p.row, p.offRow with
  | [], _ => ¬ Aligned p.p1 p.p2 p.p3
  | [_], [a, b] => ¬ Aligned p.p1 a b
  | [a, b], _ => a ≠ b
  | _, _ => ¬ (p.p2 = p.p3 ∧ p.p3 = p.p4)

/-- The points that are handled right. -/
def Handled (p : Points) : Prop :=
  isTriangle p ∨
    match p.column, p.offColumn with
    | [], _ => RowHandled p
    | [_], [a, b] =>
      a.y ≠ p.p1.y ∧ b.y ≠ p.p1.y ∧ ¬ Aligned p.p1 a b ∨ a.y = p.p1.y ∧ b.y = p.p1.y ∧ a ≠ b
    | [a, b], _ => a = b → a = p.p1
    | _, _ => (p.p1 = p.p3 ∨ p.p1 = p.p4) ↔ AtMostTwo p.toList

variable {v : Option Verdict} {w : Verdict} {l l' : List (Point ℚ)} {p q : Points} {o a b e : Point ℚ}

theorem OnOneCircle.subset (h : OnOneCircle l) (hl : ∀ x ∈ l', x ∈ l) : OnOneCircle l' := by
  obtain ⟨o, r, hr, hp⟩ := h
  exact ⟨o, r, hr, fun p hp' => hp p (hl p hp')⟩

theorem right_congr (h : ∀ x, x ∈ l ↔ x ∈ l') : Right v l ↔ Right v l' := by
  have hiff : OnOneCircle l ↔ OnOneCircle l' :=
    ⟨fun hl => hl.subset fun x hx => (h x).2 hx, fun hl => hl.subset fun x hx => (h x).1 hx⟩
  rw [Right, Right, hiff]

theorem right_some : Right (some w) l ↔ (w.isYes ↔ Cocircular l) := by
  rw [← onOneCircle_iff]
  constructor
  · rintro ⟨w', hw, h⟩
    rwa [Option.some.inj hw]
  · exact fun h => ⟨w, rfl, h⟩

theorem not_right_none : ¬ Right none l := by
  rintro ⟨w, hw, -⟩
  cases hw

theorem right_no : Right (some .no) l ↔ ¬ Cocircular l := by
  rw [right_some]
  simp [Verdict.isYes]

theorem right_precisionYes : Right (some .precisionYes) l ↔ Cocircular l := by
  rw [right_some]
  simp [Verdict.isYes]

/-! ## The parts of `data_handler` -/

theorem right_circle (h : q.Slanted) : Right (circle q) q.toList ↔ ¬ Aligned q.p1 q.p2 q.p3 := by
  rw [circle_eq h, Aligned]
  split_ifs with hcross
  · exact iff_of_false not_right_none (not_not_intro hcross)
  · refine iff_of_true (right_some.2 ?_) hcross
    obtain ⟨hb, hc⟩ := (eq_circumcentre_iff two_ne_zero hcross).2 rfl
    rw [cocircular_iff hcross (l := q.toList) List.mem_cons_self (by simp [Points.toList]) (by simp [Points.toList])]
    simp only [Points.toList, List.forall_mem_cons, hb.symm, hc.symm, true_and, List.not_mem_nil, false_implies,
      implies_true, and_true, distSq_comm (circumcentre q.p1 q.p2 q.p3)]
    split_ifs with h4
    · exact iff_of_true rfl h4
    · exact iff_of_false (by simp [Verdict.isYes]) h4

theorem circle_of_x2 (h : q.p1.x = q.p2.x) : circle q = none := by
  rw [circle, functionOfLine, h, sub_self, div_zero]
  rfl

theorem circle_of_x3 (h : q.p1.x = q.p3.x) : circle q = none := by
  have h3 : functionOfLine q.p1.x q.p1.y q.p3.x q.p3.y = none := by
    rw [functionOfLine, h, sub_self, div_zero]
    rfl
  rw [circle, h3]
  exact Option.bind_fun_none _

section
variable (h2 : q.p1.y = q.p2.y) (h2' : q.p1.y ≠ q.p2.y) (h3 : q.p1.y = q.p3.y) (h3' : q.p1.y ≠ q.p3.y)
  (h4 : q.p1.y = q.p4.y) (h4' : q.p1.y ≠ q.p4.y)
include h2' h3' in
theorem conclude_yHandler_none : conclude (yHandler q) = circle q := by
  simp only [yHandler, if_neg h2', if_neg h3']
  rfl

include h2 h3' h4' in
theorem conclude_yHandler_two : conclude (yHandler q) = circle q.swap24 := by
  simp only [yHandler, if_pos h2, Points.swap24_p1, Points.swap24_p2, Points.swap24_p3, if_neg h3', if_neg h4']
  rfl

include h2' h3 h4' in
theorem conclude_yHandler_three : conclude (yHandler q) = circle q.swap34 := by
  simp only [yHandler, if_neg h2', if_pos h3, Points.swap34_p1, Points.swap34_p2, Points.swap34_p3, if_neg h4']
  rfl

end

/-- With two more points in the row there are three points on a line. -/
theorem conclude_yHandler_no
    (h : q.p1.y = q.p2.y ∧ (q.p1.y = q.p3.y ∨ q.p1.y = q.p4.y) ∨ q.p1.y = q.p3.y ∧ q.p1.y = q.p4.y) :
    conclude (yHandler q) = some .no := by
  by_cases h2 : q.p1.y = q.p2.y
  · by_cases h3 : q.p1.y = q.p3.y
    · simp only [yHandler, if_pos h2, Points.swap24_p1, Points.swap24_p3, if_pos h3, Points.swap34_p1,
        Points.swap34_p2, Points.swap34_p3, Points.swap24_p2, Points.swap24_p4]
      split_ifs <;> rfl
    · have h4 : q.p1.y = q.p4.y := by
        rcases h with ⟨-, h | h⟩ | ⟨h, -⟩
        · exact absurd h h3
        · exact h
        · exact absurd h h3
      simp only [yHandler, if_pos h2, Points.swap24_p1, Points.swap24_p3, if_neg h3, Points.swap24_p2, if_pos h4]
      rfl
  · obtain ⟨h3, h4⟩ : q.p1.y = q.p3.y ∧ q.p1.y = q.p4.y := by
      rcases h with ⟨h, -⟩ | h
      · exact absurd h h2
      · exact h
    simp only [yHandler, if_neg h2, if_pos h3, Points.swap34_p1, Points.swap34_p2, Points.swap34_p3, if_pos h4]
    rfl

/-! ## The verdict by columns and rows -/

theorem Points.mem_toList {x : Point ℚ} : x ∈ q.toList ↔ x = q.p1 ∨ x = q.p2 ∨ x = q.p3 ∨ x = q.p4 := by
  simp [Points.toList]

/-- One other point in the column; `data_handler` has made it the fourth. -/
theorem right_oneColumn (hx2 : q.p1.x ≠ q.p2.x) (hx3 : q.p1.x ≠ q.p3.x) (hx4 : q.p1.x = q.p4.x) :
    Right (conclude (yHandler q)) q.toList ↔ q.p2.y ≠ q.p1.y ∧ q.p3.y ≠ q.p1.y ∧ ¬ Aligned q.p1 q.p2 q.p3 ∨
      q.p2.y = q.p1.y ∧ q.p3.y = q.p1.y ∧ q.p2 ≠ q.p3 := by
  have hp2 : q.p2 ≠ q.p1 := fun h => hx2 (h ▸ rfl)
  have hp3 : q.p3 ≠ q.p1 := fun h => hx3 (h ▸ rfl)
  -- the fourth point is the first, or not in its row
  have hp4 : q.p1.y = q.p4.y → q.p4 = q.p1 := fun h => Point.ext hx4.symm h.symm
  by_cases h2 : q.p1.y = q.p2.y <;> by_cases h3 : q.p1.y = q.p3.y
  · have he : q.p4 = q.p1 ∨ ¬ Aligned q.p1 q.p2 q.p4 := by
      by_cases h4 : q.p1.y = q.p4.y
      · exact Or.inl (hp4 h4)
      · exact Or.inr (not_aligned_of_y h2.symm hp2 (Ne.symm h4))
    rw [conclude_yHandler_no (Or.inl ⟨h2, Or.inl h3⟩), right_no,
      cocircular_iff_eq (fun _ => Points.mem_toList) (aligned_of_y h2.symm h3.symm) hp2 hp3 he]
    simp [h2.symm, h3.symm]
  · refine iff_of_false (fun h => ?_) (by simp [h2.symm, Ne.symm h3])
    by_cases h4 : q.p1.y = q.p4.y
    · rw [conclude_yHandler_no (Or.inl ⟨h2, Or.inr h4⟩), right_no] at h
      refine h (cocircular_of_subset (not_aligned_of_y h2.symm hp2 (Ne.symm h3)) fun x hx => ?_)
      rw [Points.mem_toList, hp4 h4] at hx
      tauto
    · rw [conclude_yHandler_two h2 h3 h4, circle_of_x2 hx4] at h
      exact not_right_none h
  · refine iff_of_false (fun h => ?_) (by simp [Ne.symm h2, h3.symm])
    by_cases h4 : q.p1.y = q.p4.y
    · rw [conclude_yHandler_no (Or.inr ⟨h3, h4⟩), right_no] at h
      refine h (cocircular_of_subset (not_aligned_of_y h3.symm hp3 (Ne.symm h2)) fun x hx => ?_)
      rw [Points.mem_toList, hp4 h4] at hx
      tauto
    · rw [conclude_yHandler_three h2 h3 h4, circle_of_x3 hx4] at h
      exact not_right_none h
  · rw [conclude_yHandler_none h2 h3, right_circle ⟨hx2, h2, hx3, h3⟩]
    simp [Ne.symm h2, Ne.symm h3]

/-- Two points of the row that are not the first. -/
theorem right_twoRow (hl : ∀ x, x ∈ l ↔ x = o ∨ x = a ∨ x = b ∨ x = e) (ha : a.y = o.y) (hb : b.y = o.y)
    (hao : a ≠ o) (hbo : b ≠ o) (he : e.y ≠ o.y) : Right (some .no) l ↔ a ≠ b := by
  rw [right_no, cocircular_iff_eq hl (aligned_of_y ha hb) hao hbo (Or.inr (not_aligned_of_y ha hao he))]

theorem atMostTwo_iff (hp2 : q.p2 ≠ q.p1) (hp3 : q.p3 ≠ q.p1) (hp4 : q.p4 ≠ q.p1) :
    AtMostTwo q.toList ↔ q.p2 = q.p3 ∧ q.p3 = q.p4 := by
  constructor
  · rintro ⟨a, b, h⟩
    have h1 := h q.p1 (Points.mem_toList.2 (by simp))
    have h2 := h q.p2 (Points.mem_toList.2 (by simp))
    have h3 := h q.p3 (Points.mem_toList.2 (by simp))
    have h4 := h q.p4 (Points.mem_toList.2 (by simp))
    grind
  · rintro ⟨h23, h34⟩
    refine ⟨q.p1, q.p2, fun x hx => ?_⟩
    rw [Points.mem_toList, ← h34, ← h23] at hx
    tauto

theorem mem_swap24 (x : Point ℚ) : x ∈ q.swap24.toList ↔ x ∈ q.toList := by
  rw [Points.mem_toList, Points.mem_toList, Points.swap24_p1, Points.swap24_p2, Points.swap24_p3, Points.swap24_p4]
  tauto

theorem mem_swap34 (x : Point ℚ) : x ∈ q.swap34.toList ↔ x ∈ q.toList := by
  rw [Points.mem_toList, Points.mem_toList, Points.swap34_p1, Points.swap34_p2, Points.swap34_p3, Points.swap34_p4]
  tauto

/-- No other point in the column. -/
theorem right_noColumn (hx2 : q.p1.x ≠ q.p2.x) (hx3 : q.p1.x ≠ q.p3.x) (hx4 : q.p1.x ≠ q.p4.x) :
    Right (conclude (yHandler q)) q.toList ↔ RowHandled q := by
  have hp2 : q.p2 ≠ q.p1 := fun h => hx2 (h ▸ rfl)
  have hp3 : q.p3 ≠ q.p1 := fun h => hx3 (h ▸ rfl)
  have hp4 : q.p4 ≠ q.p1 := fun h => hx4 (h ▸ rfl)
  by_cases h2 : q.p1.y = q.p2.y <;> by_cases h3 : q.p1.y = q.p3.y <;> by_cases h4 : q.p1.y = q.p4.y
  · have hrow : ∀ x ∈ q.toList, x.y = q.p1.y := by
      intro x hx
      rcases Points.mem_toList.1 hx with rfl | rfl | rfl | rfl
      · rfl
      · exact h2.symm
      · exact h3.symm
      · exact h4.symm
    have hcol : ∀ a ∈ q.toList, ∀ b ∈ q.toList, ∀ c ∈ q.toList, Aligned a b c := fun a ha b hb c hc =>
      aligned_of_y ((hrow b hb).trans (hrow a ha).symm) ((hrow c hc).trans (hrow a ha).symm)
    rw [conclude_yHandler_no (Or.inr ⟨h3, h4⟩), right_no, cocircular_iff_of_aligned hcol, atMostTwo_iff hp2 hp3 hp4]
    simp [RowHandled, Points.row, Points.offRow, h2.symm, h3.symm, h4.symm]
  · rw [conclude_yHandler_no (Or.inl ⟨h2, Or.inl h3⟩),
      right_twoRow (fun _ => Points.mem_toList) h2.symm h3.symm hp2 hp3 (Ne.symm h4)]
    simp [RowHandled, Points.row, Points.offRow, h2.symm, h3.symm, Ne.symm h4]
  · have hmem : ∀ x, x ∈ q.toList ↔ x = q.p1 ∨ x = q.p2 ∨ x = q.p4 ∨ x = q.p3 := fun x =>
      Points.mem_toList.trans (by tauto)
    rw [conclude_yHandler_no (Or.inl ⟨h2, Or.inr h4⟩), right_twoRow hmem h2.symm h4.symm hp2 hp4 (Ne.symm h3)]
    simp [RowHandled, Points.row, Points.offRow, h2.symm, Ne.symm h3, h4.symm]
  · have hs : q.swap24.Slanted := ⟨hx4, h4, hx3, h3⟩
    rw [conclude_yHandler_two h2 h3 h4, ← right_congr mem_swap24, right_circle hs]
    simp [RowHandled, Points.row, Points.offRow, h2.symm, Ne.symm h3, Ne.symm h4, aligned_comm]
  · have hmem : ∀ x, x ∈ q.toList ↔ x = q.p1 ∨ x = q.p3 ∨ x = q.p4 ∨ x = q.p2 := fun x =>
      Points.mem_toList.trans (by tauto)
    rw [conclude_yHandler_no (Or.inr ⟨h3, h4⟩), right_twoRow hmem h3.symm h4.symm hp3 hp4 (Ne.symm h2)]
    simp [RowHandled, Points.row, Points.offRow, Ne.symm h2, h3.symm, h4.symm]
  · have hs : q.swap34.Slanted := ⟨hx2, h2, hx4, h4⟩
    rw [conclude_yHandler_three h2 h3 h4, ← right_congr mem_swap34, right_circle hs]
    simp [RowHandled, Points.row, Points.offRow, Ne.symm h2, h3.symm, Ne.symm h4]
  · rw [conclude_yHandler_none h2 h3, right_circle ⟨hx2, h2, hx3, h3⟩]
    simp [RowHandled, Points.row, Points.offRow, Ne.symm h2, Ne.symm h3, h4.symm]
  · rw [conclude_yHandler_none h2 h3, right_circle ⟨hx2, h2, hx3, h3⟩]
    simp [RowHandled, Points.row, Points.offRow, Ne.symm h2, Ne.symm h3, Ne.symm h4]

/-- The verdict when `a` is a point of the column in the second or the third place, and `b` is
    the fourth. -/
def columnVerdict (o a b : Point ℚ) : Verdict := if o.y = a.y ∨ o.y = b.y then .precisionYes else .no

/-- Two other points in the column: the verdict is yes if the first is one of them. -/
theorem right_twoColumn (hl : ∀ x, x ∈ l ↔ x = o ∨ x = a ∨ x = b ∨ x = e) (ha : a.x = o.x) (hb : b.x = o.x)
    (he : e.x ≠ o.x) :
    Right (some (columnVerdict o a b)) l ↔ (a = b → a = o) := by
  unfold columnVerdict
  by_cases hao : a = o
  · subst hao
    rw [if_pos (Or.inl rfl), right_precisionYes]
    refine iff_of_true ?_ fun _ => rfl
    by_cases hba : b = a
    · exact cocircular_of_atMostTwo ⟨a, e, fun x hx => by
        rw [hl, hba] at hx
        tauto⟩
    · refine cocircular_of_subset (not_aligned_of_x hb hba he) fun x hx => ?_
      rw [hl] at hx
      tauto
  have hya : o.y ≠ a.y := fun h => hao (Point.ext ha h.symm)
  by_cases hbo : b = o
  · subst hbo
    rw [if_pos (Or.inr rfl), right_precisionYes]
    refine iff_of_true (cocircular_of_subset (not_aligned_of_x ha hao he) fun x hx => ?_) id
    rw [hl] at hx
    tauto
  · have hyb : o.y ≠ b.y := fun h => hbo (Point.ext hb h.symm)
    rw [if_neg (by tauto), right_no,
      cocircular_iff_eq hl (aligned_of_x ha hb) hao hbo (Or.inr (not_aligned_of_x ha hao he))]
    tauto

/-- All points in the column. -/
theorem right_threeColumn (hx2 : q.p1.x = q.p2.x) (hx3 : q.p1.x = q.p3.x) (hx4 : q.p1.x = q.p4.x) :
    Right (some (columnVerdict q.p1 q.p4 q.p3)) q.toList ↔
      ((q.p1 = q.p3 ∨ q.p1 = q.p4) ↔ AtMostTwo q.toList) := by
  have hcolumn : ∀ x ∈ q.toList, x.x = q.p1.x := by
    intro x hx
    rcases Points.mem_toList.1 hx with rfl | rfl | rfl | rfl
    · rfl
    · exact hx2.symm
    · exact hx3.symm
    · exact hx4.symm
  have hcol : ∀ a ∈ q.toList, ∀ b ∈ q.toList, ∀ c ∈ q.toList, Aligned a b c := fun a ha b hb c hc =>
    aligned_of_x ((hcolumn b hb).trans (hcolumn a ha).symm) ((hcolumn c hc).trans (hcolumn a ha).symm)
  have h3 : q.p1.y = q.p3.y ↔ q.p1 = q.p3 := ⟨fun h => Point.ext hx3 h, fun h => congrArg Point.y h⟩
  have h4 : q.p1.y = q.p4.y ↔ q.p1 = q.p4 := ⟨fun h => Point.ext hx4 h, fun h => congrArg Point.y h⟩
  rw [← cocircular_iff_of_aligned hcol, ← h3, ← h4, columnVerdict]
  split_ifs with h
  · rw [right_precisionYes]
    tauto
  · rw [right_no]
    tauto

theorem conclude_finalIf {c : Prop} [Decidable c] (q : Points) : conclude (if c then 1 else finalIf q, q) =
    some (if c ∨ q.p1.y = q.p4.y then .precisionYes else .no) := by
  by_cases hc : c <;> by_cases h4 : q.p1.y = q.p4.y <;> simp [conclude, finalIf, hc, h4]

/-- A point of the column is left in the second place. -/
theorem conclude_dataHandler_two (hq : swapX p = q) (h2 : q.p1.x = q.p2.x) : conclude (dataHandler p) =
    some (columnVerdict q.p1 q.p2 q.p4) := by
  simp only [dataHandler, hq, if_pos h2]
  exact conclude_finalIf q

/-- A point of the column is left in the third place. -/
theorem conclude_dataHandler_three (hq : swapX p = q) (h2 : q.p1.x ≠ q.p2.x) (h3 : q.p1.x = q.p3.x) :
    conclude (dataHandler p) = some (columnVerdict q.p1 q.p3 q.p4) := by
  simp only [dataHandler, hq, if_neg h2, if_pos h3]
  exact conclude_finalIf q

theorem conclude_dataHandler_none (hq : swapX p = q) (h2 : q.p1.x ≠ q.p2.x) (h3 : q.p1.x ≠ q.p3.x) :
    conclude (dataHandler p) = conclude (yHandler q) := by
  simp only [dataHandler, hq, if_neg h2, if_neg h3]

section
variable (h2 : p.p1.x = p.p2.x) (h2' : p.p1.x ≠ p.p2.x) (h3 : p.p1.x = p.p3.x) (h3' : p.p1.x ≠ p.p3.x)
include h2 h3 in
theorem swapX_both : swapX p = p.swap24.swap34 := by
  simp only [swapX, if_pos h2, Points.swap24_p1, Points.swap24_p3, if_pos h3]

include h2 h3' in
theorem swapX_two : swapX p = p.swap24 := by
  simp only [swapX, if_pos h2, Points.swap24_p1, Points.swap24_p3, if_neg h3']

include h2' h3 in
theorem swapX_three : swapX p = p.swap34 := by
  simp only [swapX, if_neg h2', if_pos h3]

include h2' h3' in
theorem swapX_none : swapX p = p := by
  simp only [swapX, if_neg h2', if_neg h3']

end

/-- A rectangle has a circle around it. -/
theorem cocircular_of_isTriangle (h : isTriangle p = true) : Cocircular p.toList := by
  obtain ⟨h12, h13, h34, h24⟩ := of_decide_eq_true h
  by_cases h14 : p.p1 = p.p4
  · have h2 : p.p2 = p.p4 := Point.ext (h12.symm.trans (congrArg Point.x h14)) h24
    have h3 : p.p3 = p.p4 := Point.ext h34 (h13.symm.trans (congrArg Point.y h14))
    refine cocircular_of_atMostTwo ⟨p.p4, p.p4, fun x hx => ?_⟩
    rw [Points.mem_toList, h14, h2, h3] at hx
    tauto
  · refine ⟨⟨(p.p1.x + p.p4.x) / 2, (p.p1.y + p.p4.y) / 2⟩, distSq p.p1 p.p4 / 4, div_pos (distSq_pos h14) four_pos, ?_⟩
    intro x hx
    unfold distSq
    rcases Points.mem_toList.1 hx with rfl | rfl | rfl | rfl
    · ring
    · rw [← h12, h24]
      ring
    · rw [h34, ← h13]
      ring
    · ring

theorem eq_imp_comm {α : Type} {a b o : α} : (a = b → a = o) ↔ (b = a → b = o) := by
  constructor
  · rintro h rfl
    exact h rfl
  · rintro h rfl
    exact h rfl

/-- **The verdict is right** exactly for the points that are handled. -/
theorem right_iff (p : Points) : Right (solve p) p.toList ↔ Handled p := by
  unfold solve Handled
  by_cases ht : isTriangle p = true
  · rw [if_pos ht, right_some]
    exact iff_of_true (iff_of_true rfl (cocircular_of_isTriangle ht)) (Or.inl ht)
  rw [if_neg ht, or_iff_right ht]
  by_cases hx2 : p.p1.x = p.p2.x <;> by_cases hx3 : p.p1.x = p.p3.x <;> by_cases hx4 : p.p1.x = p.p4.x
  · rw [conclude_dataHandler_two (swapX_both hx2 hx3) hx4]
    refine (right_threeColumn hx2 hx3 hx4).trans ?_
    simp [Points.column, Points.offColumn, hx2.symm, hx3.symm, hx4.symm]
  · rw [conclude_dataHandler_three (swapX_both hx2 hx3) hx4 hx2]
    refine (right_twoColumn (fun _ => Points.mem_toList) hx2.symm hx3.symm (Ne.symm hx4)).trans ?_
    simp [Points.column, Points.offColumn, hx2.symm, hx3.symm, Ne.symm hx4]
  · have hmem : ∀ x, x ∈ p.toList ↔ x = p.p1 ∨ x = p.p4 ∨ x = p.p2 ∨ x = p.p3 := fun x =>
      Points.mem_toList.trans (by tauto)
    rw [conclude_dataHandler_two (swapX_two hx2 hx3) hx4]
    refine (right_twoColumn hmem hx4.symm hx2.symm (Ne.symm hx3)).trans ?_
    simp [Points.column, Points.offColumn, hx2.symm, Ne.symm hx3, hx4.symm, eq_imp_comm]
  · rw [conclude_dataHandler_none (swapX_two hx2 hx3) hx4 hx3, ← right_congr mem_swap24,
      right_oneColumn (q := p.swap24) hx4 hx3 hx2]
    have hcolumn : p.column = [p.p2] := by simp [Points.column, hx2.symm, Ne.symm hx3, Ne.symm hx4]
    have hoff : p.offColumn = [p.p3, p.p4] := by simp [Points.offColumn, hx2.symm, Ne.symm hx3, Ne.symm hx4]
    rw [hcolumn, hoff, Points.swap24_p1, Points.swap24_p2, Points.swap24_p3, aligned_comm, ne_comm (a := p.p4)]
    tauto
  · have hmem : ∀ x, x ∈ p.toList ↔ x = p.p1 ∨ x = p.p4 ∨ x = p.p3 ∨ x = p.p2 := fun x =>
      Points.mem_toList.trans (by tauto)
    rw [conclude_dataHandler_three (swapX_three hx2 hx3) hx2 hx4]
    refine (right_twoColumn hmem hx4.symm hx3.symm (Ne.symm hx2)).trans ?_
    simp [Points.column, Points.offColumn, Ne.symm hx2, hx3.symm, hx4.symm, eq_imp_comm]
  · rw [conclude_dataHandler_none (swapX_three hx2 hx3) hx2 hx4, ← right_congr mem_swap34,
      right_oneColumn (q := p.swap34) hx2 hx4 hx3]
    simp [Points.column, Points.offColumn, Ne.symm hx2, hx3.symm, Ne.symm hx4]
  · rw [conclude_dataHandler_none (swapX_none hx2 hx3) hx2 hx3, right_oneColumn hx2 hx3 hx4]
    simp [Points.column, Points.offColumn, Ne.symm hx2, Ne.symm hx3, hx4.symm]
  · rw [conclude_dataHandler_none (swapX_none hx2 hx3) hx2 hx3, right_noColumn hx2 hx3 hx4]
    simp [Points.column, Points.offColumn, Ne.symm hx2, Ne.symm hx3, Ne.symm hx4]

/-- The corners of a square; the second has the ordinate of the first, and the third its
    abscissa. -/
def square : Points := { p1 := ⟨0, 0⟩, p2 := ⟨1, 0⟩, p3 := ⟨0, 1⟩, p4 := ⟨1, 1⟩ }

theorem not_right : solve square = none ∧ OnOneCircle square.toList ∧ ¬ Right (solve square) square.toList := by
  have hsolve : solve square = none := by decide +kernel
  refine ⟨hsolve, onOneCircle_iff.2 ⟨⟨1 / 2, 1 / 2⟩, 1 / 2, by norm_num, ?_⟩, ?_⟩
  · simp only [square, Points.toList, List.forall_mem_cons, List.not_mem_nil, false_implies, implies_true,
      and_true, distSq]
    norm_num
  · rw [hsolve]
    exact not_right_none

end FourPoints
