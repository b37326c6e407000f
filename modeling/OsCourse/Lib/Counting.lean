/-
  Counts and sums over the members of a finite family, when one member moves.
-/
import Mathlib.Algebra.BigOperators.Group.Finset.Basic
import Mathlib.Algebra.Order.BigOperators.Group.Finset
import Mathlib.Data.Fintype.BigOperators

namespace Counting

universe u v
variable {ι : Type u} {β : Type v} [Fintype ι]

/-- The number of members with the property `P`. -/
def num (P : ι → Prop) [DecidablePred P] : ℕ := (Finset.univ.filter P).card

theorem num_eq_sum (P : ι → Prop) [DecidablePred P] : num P = ∑ u, if P u then 1 else 0 :=
  Finset.card_filter P Finset.univ

theorem num_congr {P Q : ι → Prop} [DecidablePred P] [DecidablePred Q] (h : ∀ u, P u ↔ Q u) :
    num P = num Q := by
  unfold num; congr 1; ext u; simp [h]

theorem num_pos {P : ι → Prop} [DecidablePred P] {t : ι} (h : P t) : 0 < num P :=
  Finset.card_pos.2 ⟨t, by simp [h]⟩

theorem exists_of_num_pos {P : ι → Prop} [DecidablePred P] (h : 0 < num P) : ∃ t, P t := by
  obtain ⟨t, ht⟩ := Finset.card_pos.1 h; exact ⟨t, by simpa using ht⟩

/-! ## When one member moves -/

variable [DecidableEq ι]

/-- How a sum changes when one summand `a` leaves at `t` and one summand `b`
    comes at `t'`. -/
theorem sum_move {f f' : ι → ℕ} {a b : ℕ} (t t' : ι)
    (h : ∀ u, f' u + (if u = t then a else 0) = f u + (if u = t' then b else 0)) :
    ∑ u, f' u + a = ∑ u, f u + b := by
  have := Finset.sum_congr rfl fun u (_ : u ∈ Finset.univ) => h u
  simpa [Finset.sum_add_distrib] using this

/-- How a sum changes when only the summand at `t` changes. -/
theorem sum_change {f g : ι → ℕ} (t : ι) (h : ∀ u, u ≠ t → g u = f u) : ∑ u, g u + f t = ∑ u, f u + g t := by
  refine sum_move t t fun u => ?_
  by_cases hu : u = t
  · subst hu; simp [Nat.add_comm]
  · simp [hu, h u hu]

/-- **How a sum changes when one member `t` moves from `f t` to `c`.** -/
theorem sum_update (g : ι → β → ℕ) (f : ι → β) (t : ι) (c : β) :
    ∑ u, g u (Function.update f t c u) + g t (f t) = ∑ u, g u (f u) + g t c := by
  refine sum_move t t fun u => ?_
  by_cases hu : u = t
  · subst hu; simp [Nat.add_comm]
  · simp [hu]

/-- **How a count changes when one member `t` moves from `f t` to `c`.** -/
theorem num_update (P : β → Prop) [DecidablePred P] (f : ι → β) (t : ι) (c : β) :
    num (fun u => P (Function.update f t c u)) + (if P (f t) then 1 else 0) =
      num (fun u => P (f u)) + (if P c then 1 else 0) := by
  rw [num_eq_sum, num_eq_sum]
  exact sum_update (fun _ x => if P x then 1 else 0) f t c

/-- How a count changes when only `t` gains or loses the property. -/
theorem num_change (P P' : ι → Prop) [DecidablePred P] [DecidablePred P'] (t : ι)
    (h : ∀ u, u ≠ t → (P' u ↔ P u)) :
    num P' + (if P t then 1 else 0) = num P + (if P' t then 1 else 0) := by
  rw [num_eq_sum, num_eq_sum]
  refine sum_move t t fun u => ?_
  by_cases hu : u = t
  · subst hu; simp; omega
  · simp [hu, h u hu]

/-- The same for a family of tests. -/
theorem num_change_bool (f f' : ι → Bool) (t : ι) (h : ∀ u, u ≠ t → f' u = f u) :
    num (fun u => f' u = true) + (f t).toNat = num (fun u => f u = true) + (f' t).toNat := by
  have hb : ∀ b : Bool, (if b = true then 1 else 0) = b.toNat := by decide
  have := num_change (fun u => f u = true) (fun u => f' u = true) t fun u hu => by rw [h u hu]
  simpa only [hb] using this

end Counting
