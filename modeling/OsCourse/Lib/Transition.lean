/-
  Labelled transition systems: executions, invariants, simulations, and the
  exact condition on the steps under which a property holds all along a run.
-/
import Mathlib.Data.List.Basic

namespace Transition

universe u v w
variable {σ : Type u} {α : Type v} {τ : Type w}

/-- A labelled transition system. -/
structure System (σ : Type u) (α : Type v) where
  init : σ → Prop
  step : σ → α → σ → Prop

namespace System
variable {S : System σ α}

/-- `S.Exec tr s`: the run `tr` leads to `s`.  Each entry of `tr` is a step,
    given by the state it starts from and its label. -/
inductive Exec (S : System σ α) : List (σ × α) → σ → Prop
  | init {s} : S.init s → S.Exec [] s
  | snoc {tr s a s'} : S.Exec tr s → S.step s a s' → S.Exec (tr ++ [(s, a)]) s'

/-- The reachable states. -/
def Reachable (S : System σ α) (s : σ) : Prop := ∃ tr, S.Exec tr s

theorem Reachable.init {s : σ} (h : S.init s) : S.Reachable s := ⟨[], .init h⟩

theorem Reachable.step {s s' : σ} {a : α} (h : S.Reachable s) (hs : S.step s a s') :
    S.Reachable s' := by
  obtain ⟨tr, he⟩ := h; exact ⟨_, he.snoc hs⟩

/-! ## Invariants -/

/-- An inductive invariant. -/
structure Inductive (S : System σ α) (J : σ → Prop) : Prop where
  init : ∀ s, S.init s → J s
  step : ∀ s a s', J s → S.step s a s' → J s'

theorem Inductive.exec {J : σ → Prop} (hJ : S.Inductive J) {tr : List (σ × α)} {s : σ}
    (h : S.Exec tr s) : J s ∧ ∀ x ∈ tr, J x.1 := by
  induction h with
  | init hi => exact ⟨hJ.init _ hi, by simp⟩
  | snoc _ hs ih =>
    refine ⟨hJ.step _ _ _ ih.1 hs, fun x hx => ?_⟩
    rcases List.mem_append.1 hx with hx | hx
    · exact ih.2 x hx
    · obtain rfl := List.mem_singleton.1 hx; exact ih.1

/-- **Invariants hold of the reachable states.** -/
theorem Inductive.reachable {J : σ → Prop} (hJ : S.Inductive J) {s : σ} (h : S.Reachable s) :
    J s := by
  obtain ⟨_, he⟩ := h; exact (hJ.exec he).1

/-! ## Conditions on the steps of a run -/

/-- The system whose steps are those of `S` that meet the condition `G` (on the
    state before the step and the label). -/
def restrict (S : System σ α) (G : σ → α → Prop) : System σ α where
  init := S.init
  step s a s' := S.step s a s' ∧ G s a

theorem exec_restrict {G : σ → α → Prop} {tr : List (σ × α)} {s : σ} :
    (S.restrict G).Exec tr s ↔ S.Exec tr s ∧ ∀ x ∈ tr, G x.1 x.2 := by
  constructor
  · intro h
    induction h with
    | init hi => exact ⟨.init hi, by simp⟩
    | snoc _ hs ih =>
      refine ⟨ih.1.snoc hs.1, fun x hx => ?_⟩
      rcases List.mem_append.1 hx with hx | hx
      · exact ih.2 x hx
      · obtain rfl := List.mem_singleton.1 hx; exact hs.2
  · rintro ⟨h, hG⟩
    induction h with
    | init hi => exact .init hi
    | snoc _ hs ih =>
      exact .snoc (ih fun x hx => hG x (by simp [hx])) ⟨hs, hG (_, _) (by simp)⟩

/-- `P` holds in every state of a run. -/
def Always (P : σ → Prop) (tr : List (σ × α)) (s : σ) : Prop := (∀ x ∈ tr, P x.1) ∧ P s

theorem always_snoc {P : σ → Prop} {tr : List (σ × α)} {s s' : σ} {a : α} :
    Always P (tr ++ [(s, a)]) s' ↔ Always P tr s ∧ P s' := by
  simp only [Always, List.mem_append, List.mem_singleton]
  constructor
  · rintro ⟨h, h'⟩; exact ⟨⟨fun x hx => h x (Or.inl hx), h (s, a) (Or.inr rfl)⟩, h'⟩
  · rintro ⟨⟨h, hs⟩, h'⟩
    refine ⟨fun x hx => ?_, h'⟩
    rcases hx with hx | rfl
    · exact h x hx
    · exact hs

/-- **The exact condition on the steps.**  Let `J` be an invariant of the steps
    that meet `G`, let `J` entail `P`, and let every step from a `J`-state that
    does not meet `G` break `P`.  Then `P` holds all along a run iff all steps
    of the run meet `G`. -/
theorem Exec.always_iff {J P : σ → Prop} {G : σ → α → Prop} (hJ : (S.restrict G).Inductive J)
    (hP : ∀ s, J s → P s) (hbad : ∀ s a s', J s → S.step s a s' → ¬ G s a → ¬ P s')
    {tr : List (σ × α)} {s : σ} (h : S.Exec tr s) :
    Always P tr s ↔ ∀ x ∈ tr, G x.1 x.2 := by
  induction h with
  | init hi => simp [Always, hP _ (hJ.init _ hi)]
  | @snoc tr s a s' he hs ih =>
    rw [always_snoc, ih]
    simp only [List.mem_append, List.mem_singleton, or_imp, forall_and, forall_eq]
    refine and_congr_right fun hG => ?_
    have hs' : J s := hJ.reachable ⟨tr, exec_restrict.2 ⟨he, hG⟩⟩
    refine ⟨fun h' => ?_, fun hg => hP _ (hJ.step _ _ _ hs' ⟨hs, hg⟩)⟩
    by_contra hg
    exact hbad _ _ _ hs' hs hg h'

/-! ## Simulation -/

/-- **Simulation.**  If `f` maps every step of `S` to a step of `T` or to no step
    at all, it maps the reachable states of `S` to reachable states of `T`. -/
theorem Reachable.map {β : Type v} {T : System τ β} (f : σ → τ)
    (hinit : ∀ s, S.init s → T.init (f s))
    (hstep : ∀ s a s', S.Reachable s → S.step s a s' → f s' = f s ∨ ∃ b, T.step (f s) b (f s'))
    {s : σ} (h : S.Reachable s) : T.Reachable (f s) := by
  obtain ⟨tr, he⟩ := h
  induction he with
  | init hi => exact .init (hinit _ hi)
  | snoc he hs ih =>
    rcases hstep _ _ _ ⟨_, he⟩ hs with h | ⟨b, hb⟩
    · rwa [h]
    · exact ih.step hb

/-! ## Executable systems -/

/-- The system of a step function. -/
def ofFn (s₀ : σ) (step : σ → α → Option σ) : System σ α where
  init := (· = s₀)
  step s a s' := step s a = some s'

/-- Run a step function along a list of labels. -/
def runFn (step : σ → α → Option σ) : σ → List α → Option σ
  | s, [] => some s
  | s, a :: as => (step s a).bind fun s' => runFn step s' as

theorem runFn_append (step : σ → α → Option σ) (s : σ) (as bs : List α) :
    runFn step s (as ++ bs) = (runFn step s as).bind fun s' => runFn step s' bs := by
  induction as generalizing s with
  | nil => rfl
  | cons a as ih =>
    rw [List.cons_append, runFn, runFn, Option.bind_assoc]
    exact congrArg _ (funext fun s' => ih s')

/-- The steps of a run of a step function. -/
def traceFn (step : σ → α → Option σ) : σ → List α → List (σ × α)
  | _, [] => []
  | s, a :: as => (s, a) :: ((step s a).map fun s' => traceFn step s' as).getD []

theorem exec_runFn {s₀ : σ} {step : σ → α → Option σ} : ∀ {as : List α} {tr : List (σ × α)} {s s' : σ},
    (ofFn s₀ step).Exec tr s → runFn step s as = some s' →
      (ofFn s₀ step).Exec (tr ++ traceFn step s as) s'
  | [], tr, s, s', he, hr => by
    cases hr; simpa [traceFn] using he
  | a :: as, tr, s, s', he, hr => by
    obtain ⟨s₁, h₁, hr⟩ := Option.bind_eq_some_iff.1 hr
    have := exec_runFn (he.snoc (S := ofFn s₀ step) h₁) hr
    simpa [traceFn, h₁] using this

/-- The run along a list of labels, when its steps are possible and its end
    passes a test. -/
theorem exec_of_any (s₀ : σ) (step : σ → α → Option σ) (as : List α) (p : σ → Bool)
    (h : (runFn step s₀ as).any p = true) :
    ∃ s, runFn step s₀ as = some s ∧ (ofFn s₀ step).Exec (traceFn step s₀ as) s ∧ p s = true := by
  obtain ⟨s, hs, hp⟩ : ∃ s, runFn step s₀ as = some s ∧ p s = true := by
    cases hr : runFn step s₀ as with
    | none => rw [hr] at h; cases h
    | some s => exact ⟨s, rfl, by simpa [hr] using h⟩
  exact ⟨s, hs, by simpa using exec_runFn (.init rfl) hs, hp⟩

/-- The same for a run all of whose steps meet a condition. -/
theorem exec_of_any_restrict {G : σ → α → Prop} (s₀ : σ) (step : σ → α → Option σ) (as : List α) (p : σ → Bool)
    (hG : ∀ x ∈ traceFn step s₀ as, G x.1 x.2) (h : (runFn step s₀ as).any p = true) :
    ∃ s, runFn step s₀ as = some s ∧ ((ofFn s₀ step).restrict G).Exec (traceFn step s₀ as) s ∧ p s = true := by
  obtain ⟨s, hs, he, hp⟩ := exec_of_any s₀ step as p h
  exact ⟨s, hs, exec_restrict.2 ⟨he, hG⟩, hp⟩

theorem Reachable.runFn {s₀ s s' : σ} {step : σ → α → Option σ} {as : List α} (h : (ofFn s₀ step).Reachable s)
    (hr : System.runFn step s as = some s') : (ofFn s₀ step).Reachable s' := by
  obtain ⟨tr, he⟩ := h
  exact ⟨_, exec_runFn he hr⟩

theorem reachable_runFn {s₀ s : σ} {step : σ → α → Option σ} {as : List α}
    (h : runFn step s₀ as = some s) : (ofFn s₀ step).Reachable s :=
  ⟨_, exec_runFn (.init rfl) h⟩

end System

end Transition
