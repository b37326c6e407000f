/-
  A semaphore with one permit: threads that take it before they go in, and give it back when
  they go out, are inside one at a time.
-/
import Mathlib.Logic.Function.Basic
import Mathlib.Tactic.Common

namespace Permit

universe u v
variable {ι : Type u} {π : Type v} [DecidableEq ι]

/-- The semaphore is free and nobody is inside, or exactly one is. -/
def Exclusive (Inside : π → Prop) (value : ℕ) (pcs : ι → π) : Prop :=
  value = 1 ∧ (∀ t, ¬ Inside (pcs t)) ∨ value = 0 ∧ ∃ t, ∀ t', Inside (pcs t') ↔ t' = t

variable {Inside : π → Prop} {value : ℕ} {pcs : ι → π} {pc : π} {t : ι}

/-- A thread that is not inside goes on outside. -/
theorem Exclusive.outside (h : Exclusive Inside value pcs) (ht : ¬ Inside (pcs t))
    (hpc : ¬ Inside pc) : Exclusive Inside value (Function.update pcs t pc) := by
  have hsame : ∀ t', Inside (Function.update pcs t pc t') ↔ Inside (pcs t') := by
    intro t'
    by_cases htt : t' = t
    · subst htt
      rw [Function.update_self]
      exact iff_of_false hpc ht
    · rw [Function.update_of_ne htt]
  refine h.imp (fun h => ⟨h.1, fun t' => ?_⟩) fun ⟨h0, t₀, h⟩ => ⟨h0, t₀, fun t' => ?_⟩
  · rw [hsame]
    exact h.2 t'
  · rw [hsame]
    exact h t'

/-- The thread that is inside goes on inside. -/
theorem Exclusive.inside (h : Exclusive Inside value pcs) (ht : Inside (pcs t))
    (hpc : Inside pc) : Exclusive Inside value (Function.update pcs t pc) := by
  refine h.imp (fun h => absurd ht (h.2 t)) fun ⟨h0, t₀, h⟩ => ⟨h0, t₀, fun t' => ?_⟩
  by_cases htt : t' = t
  · subst htt
    rw [Function.update_self]
    exact iff_of_true hpc ((h t').1 ht)
  · rw [Function.update_of_ne htt]
    exact h t'

/-- A thread goes in. -/
theorem Exclusive.enter (h : Exclusive Inside (value + 1) pcs) (hpc : Inside pc) :
    Exclusive Inside value (Function.update pcs t pc) := by
  obtain ⟨h1, h⟩ | ⟨h0, -⟩ := h
  · refine Or.inr ⟨Nat.succ.inj h1, t, fun t' => ?_⟩
    by_cases htt : t' = t
    · subst htt
      rw [Function.update_self]
      exact iff_of_true hpc rfl
    · rw [Function.update_of_ne htt]
      exact iff_of_false (h t') htt
  · cases h0

/-- The thread that is inside goes out. -/
theorem Exclusive.leave (h : Exclusive Inside value pcs) (ht : Inside (pcs t))
    (hpc : ¬ Inside pc) : Exclusive Inside (value + 1) (Function.update pcs t pc) := by
  obtain ⟨-, h⟩ | ⟨rfl, t₀, h⟩ := h
  · exact absurd ht (h t)
  · refine Or.inl ⟨rfl, fun t' => ?_⟩
    by_cases htt : t' = t
    · subst htt
      rwa [Function.update_self]
    · rw [Function.update_of_ne htt, h t', ← (h t).1 ht]
      exact htt

end Permit
