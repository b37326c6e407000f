/-
  Runs with an observer: a state of its own that it keeps along the run, a condition on every
  step that may depend on it, and invariants of both states.
-/
import OsCourse.Lib.Transition

namespace Transition.System

universe u v w
variable {σ : Type u} {α : Type v} {ω : Type w} {S : System σ α}

/-- Every step of the run meets the condition `ok` when the observer comes to it. -/
def Accepts (next : ω → σ × α → ω) (ok : ω → σ × α → Prop) : ω → List (σ × α) → Prop
  | _, [] => True
  | w, x :: tr => ok w x ∧ Accepts next ok (next w x) tr

instance decidableAccepts (next : ω → σ × α → ω) (ok : ω → σ × α → Prop) [∀ w x, Decidable (ok w x)] :
    ∀ w tr, Decidable (Accepts next ok w tr)
  | _, [] => inferInstanceAs (Decidable True)
  | w, x :: tr =>
    have := decidableAccepts next ok (next w x) tr
    inferInstanceAs (Decidable (ok w x ∧ Accepts next ok (next w x) tr))

variable {next : ω → σ × α → ω} {ok : ω → σ × α → Prop} {w : ω} {tr : List (σ × α)} {s : σ}

theorem accepts_snoc {x : σ × α} :
    Accepts next ok w (tr ++ [x]) ↔ Accepts next ok w tr ∧ ok (tr.foldl next w) x := by
  induction tr generalizing w with
  | nil => exact and_comm
  | cons y tr ih => rw [List.cons_append, Accepts, Accepts, ih, List.foldl_cons, and_assoc]

/-- **Invariants of a watched run**: what holds in the beginning, and is kept by every step
    that meets the condition, holds at every step of an accepted run. -/
theorem Exec.watched {J : ω → σ → Prop} {P : σ → α → Prop} (hinit : ∀ s, S.init s → J w s)
    (hstep : ∀ w s a s', J w s → ok w (s, a) → S.step s a s' → J (next w (s, a)) s' ∧ P s a)
    (h : S.Exec tr s) (hok : Accepts next ok w tr) : J (tr.foldl next w) s ∧ ∀ x ∈ tr, P x.1 x.2 := by
  induction h with
  | init hi => exact ⟨hinit _ hi, fun x hx => absurd hx List.not_mem_nil⟩
  | @snoc tr s a s' _ hs ih =>
    obtain ⟨htr, hx⟩ := accepts_snoc.1 hok
    obtain ⟨hJ, hP⟩ := ih htr
    obtain ⟨hJ', hP'⟩ := hstep _ _ _ _ hJ hx hs
    rw [List.foldl_append]
    refine ⟨hJ', fun x hx => ?_⟩
    rcases List.mem_append.1 hx with hx | hx
    · exact hP x hx
    · obtain rfl := List.mem_singleton.1 hx
      exact hP'

end Transition.System
