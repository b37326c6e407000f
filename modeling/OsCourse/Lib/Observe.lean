/-
  Machines with output: which states no sequence of inputs can tell apart.
-/
import Mathlib.Data.List.Basic

namespace Observe

universe u v w
variable {σ : Type u} {α : Type v} {ω : Type w}

/-- A machine that may refuse an input. -/
abbrev Machine (σ : Type u) (α : Type v) (ω : Type w) := σ → α → Option (σ × ω)

/-- The outputs of a run, up to the first input that is refused. -/
def outputs (M : Machine σ α ω) : σ → List α → List ω
  | _, [] => []
  | s, a :: as => ((M s a).map fun r => r.2 :: outputs M r.1 as).getD []

/-- No sequence of inputs tells the states apart. -/
def Indist (M : Machine σ α ω) (s t : σ) : Prop := ∀ as, outputs M s as = outputs M t as

variable {M : Machine σ α ω} {s t : σ} {a : α}

/-- **Indistinguishable states** accept the same inputs, with the same output, and
    go to indistinguishable states. -/
theorem Indist.step (h : Indist M s t) {r r' : σ × ω} (hs : M s a = some r) (ht : M t a = some r') :
    r.2 = r'.2 ∧ Indist M r.1 r'.1 := by
  have key : ∀ as, r.2 :: outputs M r.1 as = r'.2 :: outputs M r'.1 as := by
    intro as
    simpa [outputs, hs, ht] using h (a :: as)
  exact ⟨(List.cons.inj (key [])).1, fun as => (List.cons.inj (key as)).2⟩

/-- Two results of a step match: both refuse, or both have the same output and
    lead to related states. -/
def Match (R : σ → σ → Prop) : Option (σ × ω) → Option (σ × ω) → Prop
  | some r, some r' => r.2 = r'.2 ∧ R r.1 r'.1
  | none, none => True
  | _, _ => False

/-- **Bisimulation.**  States related by a relation whose steps match are
    indistinguishable. -/
theorem Indist.of_bisim {R : σ → σ → Prop} (hR : ∀ s t a, R s t → Match R (M s a) (M t a)) :
    ∀ {s t : σ}, R s t → Indist M s t := by
  intro s t h as
  induction as generalizing s t with
  | nil => rfl
  | cons a as ih =>
    have hm := hR s t a h
    simp only [outputs]
    revert hm
    cases M s a with
    | none => cases M t a with
      | none => exact fun _ => rfl
      | some => exact False.elim
    | some r => cases M t a with
      | none => exact False.elim
      | some r' => rintro ⟨ho, hr⟩; simp [ho, ih hr]

end Observe
