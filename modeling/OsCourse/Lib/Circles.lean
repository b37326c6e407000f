/-
  Points of a plane over an ordered field, and the circles through them: when there is one,
  and that a larger field has no more of them.
-/
import Mathlib.Algebra.Order.Field.Basic
import Mathlib.Data.Nat.Cast.Basic
import Mathlib.RingTheory.SimpleRing.Field
import Mathlib.Tactic.FieldSimp
import Mathlib.Tactic.LinearCombination
import Mathlib.Tactic.Positivity
import Mathlib.Tactic.Ring

universe u v

/-- A point of the plane. -/
@[ext] structure Point (K : Type u) where
  x : K
  y : K
  deriving DecidableEq

namespace Point

section
variable {K : Type u} [Field K] {a b c o : Point K}

/-- The square of the distance. -/
def distSq (p q : Point K) : K := (p.x - q.x) ^ 2 + (p.y - q.y) ^ 2

/-- Twice the area of the triangle, with its orientation. -/
def cross (a b c : Point K) : K := (b.x - a.x) * (c.y - a.y) - (c.x - a.x) * (b.y - a.y)

def Aligned (a b c : Point K) : Prop := cross a b c = 0

/-- The centre of the circle through three points that are not aligned. -/
def circumcentre (a b c : Point K) : Point K where
  x := a.x + ((c.y - a.y) * distSq b a - (b.y - a.y) * distSq c a) / (2 * cross a b c)
  y := a.y + ((b.x - a.x) * distSq c a - (c.x - a.x) * distSq b a) / (2 * cross a b c)

theorem aligned_comm : Aligned a b c ↔ Aligned a c b := by
  rw [Aligned, Aligned, ← neg_eq_zero]
  unfold cross
  ring_nf

theorem aligned_of_x (hb : b.x = a.x) (hc : c.x = a.x) : Aligned a b c := by
  unfold Aligned cross
  rw [hb, hc]
  ring

theorem aligned_of_y (hb : b.y = a.y) (hc : c.y = a.y) : Aligned a b c := by
  unfold Aligned cross
  rw [hb, hc]
  ring

theorem not_aligned_of_x (hb : b.x = a.x) (hab : b ≠ a) (hc : c.x ≠ a.x) : ¬ Aligned a b c := by
  unfold Aligned cross
  rw [hb, sub_self, zero_mul, zero_sub, neg_eq_zero]
  exact mul_ne_zero (sub_ne_zero.2 hc) (sub_ne_zero.2 fun hy => hab (Point.ext hb hy))

theorem not_aligned_of_y (hb : b.y = a.y) (hab : b ≠ a) (hc : c.y ≠ a.y) : ¬ Aligned a b c := by
  unfold Aligned cross
  rw [hb, sub_self, mul_zero, sub_zero]
  exact mul_ne_zero (sub_ne_zero.2 fun hx => hab (Point.ext hx hb)) (sub_ne_zero.2 hc)

theorem distSq_comm (a b : Point K) : distSq a b = distSq b a := by
  unfold distSq
  ring

/-- The points that are as far from `a` as from `b` are on a line. -/
theorem equidistant_iff : distSq a o = distSq b o ↔
    2 * ((b.x - a.x) * (o.x - a.x) + (b.y - a.y) * (o.y - a.y)) = distSq b a := by
  unfold distSq
  constructor
  · intro h
    linear_combination h
  · intro h
    linear_combination h

/-- **The centre is determined** by three points that are not aligned. -/
theorem eq_circumcentre_iff (h2 : (2 : K) ≠ 0) (h : ¬ Aligned a b c) :
    distSq a o = distSq b o ∧ distSq a o = distSq c o ↔ o = circumcentre a b c := by
  have hc : cross a b c ≠ 0 := h
  have hd : 2 * cross a b c ≠ 0 := mul_ne_zero h2 hc
  rw [equidistant_iff, equidistant_iff, Point.ext_iff]
  simp only [circumcentre, ← sub_eq_iff_eq_add', eq_div_iff hd]
  constructor
  · rintro ⟨hb, hc⟩
    constructor
    · unfold cross
      linear_combination (c.y - a.y) * hb - (b.y - a.y) * hc
    · unfold cross
      linear_combination (b.x - a.x) * hc - (c.x - a.x) * hb
  · rintro ⟨hx, hy⟩
    constructor
    · refine mul_left_cancel₀ hc ?_
      unfold cross at *
      linear_combination (b.x - a.x) * hx + (b.y - a.y) * hy
    · refine mul_left_cancel₀ hc ?_
      unfold cross at *
      linear_combination (c.x - a.x) * hx + (c.y - a.y) * hy

end

section
variable {K : Type u} [Field K] [LinearOrder K] [IsStrictOrderedRing K] {a b c d o : Point K} {l : List (Point K)}

/-- Some circle passes through all the points; `r` is the square of its radius. -/
def Cocircular (l : List (Point K)) : Prop := ∃ o : Point K, ∃ r : K, 0 < r ∧ ∀ p ∈ l, distSq p o = r

/-- The points are two at most. -/
def AtMostTwo (l : List (Point K)) : Prop := ∃ a b : Point K, ∀ p ∈ l, p = a ∨ p = b

theorem distSq_nonneg (a b : Point K) : 0 ≤ distSq a b := by
  unfold distSq
  positivity

theorem distSq_eq_zero_iff : distSq a b = 0 ↔ a = b := by
  unfold distSq
  rw [add_eq_zero_iff_of_nonneg (sq_nonneg _) (sq_nonneg _), sq_eq_zero_iff, sq_eq_zero_iff, sub_eq_zero, sub_eq_zero,
    Point.ext_iff]

theorem distSq_pos (h : a ≠ b) : 0 < distSq a b :=
  lt_of_le_of_ne (distSq_nonneg a b) fun h0 => h (distSq_eq_zero_iff.1 h0.symm)

theorem cocircular_of_atMostTwo (h : AtMostTwo l) : Cocircular l := by
  obtain ⟨a, b, hl⟩ := h
  by_cases hab : a = b
  · refine ⟨{ x := a.x + 1, y := a.y }, 1, one_pos, fun p hp => ?_⟩
    obtain rfl : p = a := (hl p hp).elim id fun h => h.trans hab.symm
    unfold distSq
    ring
  · refine ⟨{ x := (a.x + b.x) / 2, y := (a.y + b.y) / 2 }, distSq a b / 4, div_pos (distSq_pos hab) four_pos, ?_⟩
    intro p hp
    unfold distSq
    rcases hl p hp with rfl | rfl
    · field_simp
      ring
    · field_simp
      ring

/-- Three points of a circle are not on a line. -/
theorem not_aligned_of_distSq (hb : distSq a o = distSq b o) (hc : distSq a o = distSq c o) (hab : a ≠ b)
    (hac : a ≠ c) (hbc : b ≠ c) : ¬ Aligned a b c := by
  intro h
  have hcross : cross a b c = 0 := h
  rw [equidistant_iff] at hb hc
  have hB : distSq b a ≠ 0 := fun h0 => hab (distSq_eq_zero_iff.1 h0).symm
  -- the vectors from `a` to `b` and `c` are multiples of each other
  have hinner : distSq c a = (b.x - a.x) * (c.x - a.x) + (b.y - a.y) * (c.y - a.y) := by
    refine mul_left_cancel₀ hB ?_
    unfold distSq cross at *
    linear_combination (-((b.x - a.x) ^ 2 + (b.y - a.y) ^ 2)) * hc +
      ((b.x - a.x) * (c.x - a.x) + (b.y - a.y) * (c.y - a.y)) * hb +
      2 * ((b.x - a.x) * (o.y - a.y) - (b.y - a.y) * (o.x - a.x)) * hcross
  have hprod : distSq c a * (distSq b a - distSq c a) = 0 := by
    unfold distSq cross at *
    linear_combination (-((c.x - a.x) ^ 2 + (c.y - a.y) ^ 2 +
      ((b.x - a.x) * (c.x - a.x) + (b.y - a.y) * (c.y - a.y)))) * hinner +
      ((b.x - a.x) * (c.y - a.y) - (c.x - a.x) * (b.y - a.y)) * hcross
  rcases mul_eq_zero.1 hprod with h0 | h0
  · exact hac (distSq_eq_zero_iff.1 h0).symm
  · refine hbc (distSq_eq_zero_iff.1 ?_)
    unfold distSq at *
    linear_combination h0 + 2 * hinner

theorem Cocircular.not_aligned (h : Cocircular l) (ha : a ∈ l) (hb : b ∈ l) (hc : c ∈ l) (hab : a ≠ b)
    (hac : a ≠ c) (hbc : b ≠ c) : ¬ Aligned a b c := by
  obtain ⟨o, r, -, hr⟩ := h
  exact not_aligned_of_distSq ((hr a ha).trans (hr b hb).symm) ((hr a ha).trans (hr c hc).symm) hab hac hbc

omit [IsStrictOrderedRing K] in
/-- Three different points, or not more than two. -/
theorem exists_three (h : ¬ AtMostTwo l) : ∃ a ∈ l, ∃ b ∈ l, ∃ c ∈ l, a ≠ b ∧ a ≠ c ∧ b ≠ c := by
  cases l with
  | nil => exact absurd ⟨⟨0, 0⟩, ⟨0, 0⟩, fun p hp => by cases hp⟩ h
  | cons a l =>
    obtain ⟨b, hb, hab⟩ : ∃ b ∈ a :: l, a ≠ b := by
      by_contra hall
      push Not at hall
      exact h ⟨a, a, fun p hp => Or.inl (hall p hp).symm⟩
    obtain ⟨c, hc, hac, hbc⟩ : ∃ c ∈ a :: l, a ≠ c ∧ b ≠ c := by
      by_contra hall
      push Not at hall
      refine h ⟨a, b, fun p hp => ?_⟩
      by_cases hap : a = p
      · exact Or.inl hap.symm
      · exact Or.inr (hall p hp hap).symm
    exact ⟨a, List.mem_cons_self, b, hb, c, hc, hab, hac, hbc⟩

/-- **On a line**, no circle passes through more than two points. -/
theorem cocircular_iff_of_aligned (h : ∀ a ∈ l, ∀ b ∈ l, ∀ c ∈ l, Aligned a b c) :
    Cocircular l ↔ AtMostTwo l := by
  refine ⟨fun hl => ?_, cocircular_of_atMostTwo⟩
  by_contra htwo
  obtain ⟨a, ha, b, hb, c, hc, hab, hac, hbc⟩ := exists_three htwo
  exact hl.not_aligned ha hb hc hab hac hbc (h a ha b hb c hc)

/-- **Through three points that are not on a line** there is one circle; the others are to
    be as far from its centre. -/
theorem cocircular_iff (h : ¬ Aligned a b c) (ha : a ∈ l) (hb : b ∈ l) (hc : c ∈ l) :
    Cocircular l ↔ ∀ p ∈ l, distSq p (circumcentre a b c) = distSq a (circumcentre a b c) := by
  constructor
  · rintro ⟨o, r, -, hr⟩ p hp
    obtain rfl := (eq_circumcentre_iff two_ne_zero h).1
      ⟨(hr a ha).trans (hr b hb).symm, (hr a ha).trans (hr c hc).symm⟩
    rw [hr p hp, hr a ha]
  · intro hl
    obtain ⟨hab, -⟩ := (eq_circumcentre_iff two_ne_zero h).2 rfl
    refine ⟨_, _, distSq_pos fun heq => h ?_, hl⟩
    have hzero : distSq a (circumcentre a b c) = 0 := distSq_eq_zero_iff.2 heq
    have hba : a = b := heq.trans (distSq_eq_zero_iff.1 (hab.symm.trans hzero)).symm
    subst hba
    unfold Aligned cross
    ring

/-- There is a circle through three points that are not on a line. -/
theorem cocircular_of_subset (h : ¬ Aligned a b c) (hl : ∀ p ∈ l, p = a ∨ p = b ∨ p = c) : Cocircular l := by
  have habc : Cocircular [a, b, c] := by
    obtain ⟨hb, hc⟩ := (eq_circumcentre_iff two_ne_zero h).2 rfl
    refine (cocircular_iff h (by simp) (by simp) (by simp)).2 fun p hp => ?_
    simp only [List.mem_cons, List.not_mem_nil, or_false] at hp
    rcases hp with rfl | rfl | rfl
    · rfl
    · exact hb.symm
    · exact hc.symm
  obtain ⟨o, r, hr, ho⟩ := habc
  exact ⟨o, r, hr, fun p hp => ho p (by simpa using hl p hp)⟩

/-- Two points on a line through `o`, and one that is not on it or is `o`: they are on a
    circle only if the two are one. -/
theorem cocircular_iff_eq {e : Point K} (hl : ∀ p, p ∈ l ↔ p = o ∨ p = a ∨ p = b ∨ p = e) (hcol : Aligned o a b)
    (ha : a ≠ o) (hb : b ≠ o) (he : e = o ∨ ¬ Aligned o a e) : Cocircular l ↔ a = b := by
  constructor
  · intro h
    by_contra hab
    exact h.not_aligned ((hl o).2 (by simp)) ((hl a).2 (by simp)) ((hl b).2 (by simp)) ha.symm hb.symm hab hcol
  · rintro rfl
    rcases he with rfl | he
    · refine cocircular_of_atMostTwo ⟨e, a, fun p hp => ?_⟩
      rcases (hl p).1 hp with h | h | h | h
      · exact Or.inl h
      · exact Or.inr h
      · exact Or.inr h
      · exact Or.inl h
    · refine cocircular_of_subset he fun p hp => ?_
      rcases (hl p).1 hp with h | h | h | h
      · exact Or.inl h
      · exact Or.inr (Or.inl h)
      · exact Or.inr (Or.inl h)
      · exact Or.inr (Or.inr h)

end

/-! ## A larger field -/

section
variable {K : Type u} [Field K] {L : Type v} [Field L] (f : K →+* L) {a b c : Point K}

/-- The point with its coordinates in the larger field. -/
def map (p : Point K) : Point L := { x := f p.x, y := f p.y }

theorem map_injective : Function.Injective (map f) := by
  intro p q h
  have hx := congrArg Point.x h
  have hy := congrArg Point.y h
  exact Point.ext (f.injective hx) (f.injective hy)

theorem distSq_map (a b : Point K) : distSq (a.map f) (b.map f) = f (distSq a b) := by
  simp [distSq, map]

theorem cross_map (a b c : Point K) : cross (a.map f) (b.map f) (c.map f) = f (cross a b c) := by
  simp [cross, map]

theorem aligned_map : Aligned (a.map f) (b.map f) (c.map f) ↔ Aligned a b c := by
  rw [Aligned, cross_map, map_eq_zero, Aligned]

theorem circumcentre_map (a b c : Point K) :
    circumcentre (a.map f) (b.map f) (c.map f) = (circumcentre a b c).map f := by
  have h2 : f 2 = 2 := map_ofNat f 2
  unfold circumcentre
  rw [cross_map, distSq_map, distSq_map]
  simp [map, h2]

variable [LinearOrder K] [IsStrictOrderedRing K] [LinearOrder L] [IsStrictOrderedRing L] {l : List (Point K)}

/-- **The larger field has no more circles** through the points. -/
theorem cocircular_map : Cocircular (l.map (map f)) ↔ Cocircular l := by
  by_cases htwo : AtMostTwo l
  · refine iff_of_true (cocircular_of_atMostTwo ?_) (cocircular_of_atMostTwo htwo)
    obtain ⟨a, b, hl⟩ := htwo
    refine ⟨a.map f, b.map f, fun p hp => ?_⟩
    obtain ⟨q, hq, rfl⟩ := List.mem_map.1 hp
    exact (hl q hq).imp (congrArg (map f)) (congrArg (map f))
  obtain ⟨a, ha, b, hb, c, hc, hab, hac, hbc⟩ := exists_three htwo
  have ha' := List.mem_map_of_mem (f := map f) ha
  have hb' := List.mem_map_of_mem (f := map f) hb
  have hc' := List.mem_map_of_mem (f := map f) hc
  by_cases hcol : Aligned a b c
  · refine iff_of_false (fun h => ?_) fun h => h.not_aligned ha hb hc hab hac hbc hcol
    exact h.not_aligned ha' hb' hc' ((map_injective f).ne hab) ((map_injective f).ne hac)
      ((map_injective f).ne hbc) ((aligned_map f).2 hcol)
  · rw [cocircular_iff hcol ha hb hc, cocircular_iff (mt (aligned_map f).1 hcol) ha' hb' hc', List.forall_mem_map]
    simp only [circumcentre_map, distSq_map, f.injective.eq_iff]

end

end Point
