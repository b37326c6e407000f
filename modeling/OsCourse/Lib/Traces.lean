/-
  The visible events of a run, and simulations that keep them: every trace of the
  simulated system is a trace of the other one.
-/
import OsCourse.Lib.Transition

namespace Transition.System

universe u v w
variable {σ α τ β : Type u} {ε : Type v} {S : System σ α} {T : System τ β}

/-- The visible events of a run, where `vis s a` is what is seen of the step `a`
    from `s`. -/
def events (vis : σ → α → Option ε) (tr : List (σ × α)) : List ε :=
  tr.filterMap fun x => vis x.1 x.2

@[simp] theorem events_nil (vis : σ → α → Option ε) : events vis [] = [] := rfl

@[simp] theorem events_cons (vis : σ → α → Option ε) (s : σ) (a : α) (tr : List (σ × α)) :
    events vis ((s, a) :: tr) = (vis s a).toList ++ events vis tr := by
  unfold events
  cases h : vis s a <;> simp [h]

@[simp] theorem events_append (vis : σ → α → Option ε) (tr tr' : List (σ × α)) :
    events vis (tr ++ tr') = events vis tr ++ events vis tr' := List.filterMap_append

/-! ## Several steps -/

/-- `S.Steps s tr s'`: the steps `tr` lead from `s` to `s'`. -/
inductive Steps (S : System σ α) : σ → List (σ × α) → σ → Prop
  | nil (s) : S.Steps s [] s
  | cons {s a s' tr s''} : S.step s a s' → S.Steps s' tr s'' → S.Steps s ((s, a) :: tr) s''

theorem Steps.single {s s' : σ} {a : α} (h : S.step s a s') : S.Steps s [(s, a)] s' :=
  .cons h (.nil _)

theorem Exec.append {s s' : σ} {tr tr' : List (σ × α)} (h : S.Exec tr s)
    (h' : S.Steps s tr' s') : S.Exec (tr ++ tr') s' := by
  induction h' generalizing tr with
  | nil => simpa using h
  | cons hs _ ih => simpa using ih (h.snoc hs)

theorem Steps.runFn {s₀ s s' : σ} {step : σ → α → Option σ} {as : List α} (h : System.runFn step s as = some s') :
    (ofFn s₀ step).Steps s (traceFn step s as) s' := by
  induction as generalizing s with
  | nil =>
    cases h
    exact .nil _
  | cons a as ih =>
    obtain ⟨s₁, h₁, hr⟩ := Option.bind_eq_some_iff.1 h
    rw [traceFn, h₁]
    exact .cons h₁ (ih hr)

theorem Steps.restrict {G : σ → α → Prop} {s s' : σ} {tr : List (σ × α)} (h : S.Steps s tr s')
    (hG : ∀ x ∈ tr, G x.1 x.2) : (S.restrict G).Steps s tr s' := by
  induction h with
  | nil s => exact .nil s
  | @cons s a s₁ tr s' hs _ ih =>
    exact .cons ⟨hs, hG (s, a) List.mem_cons_self⟩ (ih fun x hx => hG x (List.mem_cons_of_mem _ hx))

theorem Reachable.steps {s s' : σ} {tr : List (σ × α)} (h : S.Reachable s)
    (h' : S.Steps s tr s') : S.Reachable s' := by
  obtain ⟨tr₀, he⟩ := h; exact ⟨_, he.append h'⟩

/-- **A measure that can be decreased.**  When from every reachable state outside of `E`
    some step decreases the rank, every reachable state has steps that lead into `E`. -/
theorem Reachable.exists_steps {E : σ → Prop} (rank : σ → ℕ)
    (hrank : ∀ s, S.Reachable s → ¬ E s → ∃ a s', S.step s a s' ∧ rank s' < rank s)
    {s : σ} (h : S.Reachable s) : ∃ tr s', S.Steps s tr s' ∧ E s' := by
  induction hr : rank s using Nat.strongRecOn generalizing s with
  | _ r ih =>
    by_cases hE : E s
    · exact ⟨[], s, .nil s, hE⟩
    · obtain ⟨a, s₁, hs, hlt⟩ := hrank s h hE
      obtain ⟨tr, s', hst, hE'⟩ := ih _ (hr ▸ hlt) (h.step hs) rfl
      exact ⟨_, s', .cons hs hst, hE'⟩

/-- **A measure that bounds a run.**  When no step increases the rank, and the busy ones
    decrease it, a run has no more busy steps than the rank it starts with. -/
theorem Steps.countP_le {J : σ → Prop} (rank : σ → ℕ) (busy : σ × α → Bool)
    (hstep : ∀ s a s', J s → S.step s a s' → J s' ∧ rank s' + (busy (s, a)).toNat ≤ rank s)
    {s s' : σ} {tr : List (σ × α)} (hs : J s) (h : S.Steps s tr s') : J s' ∧ tr.countP busy + rank s' ≤ rank s := by
  induction h with
  | nil => exact ⟨hs, by simp⟩
  | @cons s a s₁ tr s' hstep₁ _ ih =>
    obtain ⟨hs₁, hle⟩ := hstep s a s₁ hs hstep₁
    obtain ⟨hs', hcount⟩ := ih hs₁
    refine ⟨hs', ?_⟩
    cases hb : busy (s, a) with
    | true =>
      rw [List.countP_cons_of_pos hb]
      simp only [hb, Bool.toNat_true] at hle
      omega
    | false =>
      rw [List.countP_cons_of_neg (by simp [hb])]
      omega

/-! ## Simulation -/

/-- `R` relates the states of `S` to states of `T` that can do what `S` does, with
    the same visible events. -/
structure Simulation (S : System σ α) (T : System τ β) (vis : σ → α → Option ε)
    (vis' : τ → β → Option ε) (R : σ → τ → Prop) : Prop where
  init : ∀ s, S.init s → ∃ t, T.init t ∧ R s t
  step : ∀ s a s' t, T.Reachable t → R s t → S.step s a s' →
    ∃ tr t', T.Steps t tr t' ∧ events vis' tr = (vis s a).toList ∧ R s' t'

/-- **Trace inclusion.**  A run of the simulated system has a run of the other
    one with the same visible events. -/
theorem Simulation.exec {vis : σ → α → Option ε} {vis' : τ → β → Option ε} {R : σ → τ → Prop}
    (hR : S.Simulation T vis vis' R) {tr : List (σ × α)} {s : σ} (h : S.Exec tr s) :
    ∃ tr' t, T.Exec tr' t ∧ events vis' tr' = events vis tr ∧ R s t := by
  induction h with
  | init hi =>
    obtain ⟨t, ht, hR'⟩ := hR.init _ hi
    exact ⟨[], t, .init ht, rfl, hR'⟩
  | snoc _ hs ih =>
    obtain ⟨tr', t, he, hev, hR'⟩ := ih
    obtain ⟨tr'', t', hst, hev', hR''⟩ := hR.step _ _ _ t ⟨tr', he⟩ hR' hs
    exact ⟨_, t', he.append hst, by simp [hev, hev'], hR''⟩

/-- The reachable states of the simulated system are related to reachable ones. -/
theorem Simulation.reachable {vis : σ → α → Option ε} {vis' : τ → β → Option ε} {R : σ → τ → Prop}
    (hR : S.Simulation T vis vis' R) {s : σ} (h : S.Reachable s) : ∃ t, T.Reachable t ∧ R s t := by
  obtain ⟨tr, he⟩ := h
  obtain ⟨tr', t, he', -, hR'⟩ := hR.exec he
  exact ⟨t, ⟨tr', he'⟩, hR'⟩

/-! ## Events seen in a run -/

/-- An event that a run has shown is shown by its last step, or before it. -/
theorem events_snoc_eq {vis : σ → α → Option ε} {tr : List (σ × α)} {s : σ} {a : α} {l l' : List ε} {e : ε}
    (he : events vis (tr ++ [(s, a)]) = l ++ e :: l') :
    (vis s a = some e ∧ l' = [] ∧ events vis tr = l) ∨
      ∃ l'', events vis tr = l ++ e :: l'' ∧ l' = l'' ++ (vis s a).toList := by
  rw [events_append, events_cons, events_nil, List.append_nil] at he
  cases hv : vis s a with
  | none =>
    rw [hv, Option.toList_none, List.append_nil] at he
    exact .inr ⟨l', he, (List.append_nil l').symm⟩
  | some x =>
    rw [hv, Option.toList_some] at he
    rcases List.eq_nil_or_concat l' with rfl | ⟨l'', y, rfl⟩
    · obtain ⟨hl, hx⟩ := List.append_inj' he rfl
      exact .inl ⟨congrArg some (List.cons.inj hx).1, rfl, hl⟩
    · rw [List.concat_eq_append, ← List.cons_append, ← List.append_assoc] at he
      obtain ⟨hl, hx⟩ := List.append_inj' he rfl
      exact .inr ⟨l'', hl, by rw [List.concat_eq_append, Option.toList_some, hx]⟩

/-- The step of a run that shows an event, and the run up to it. -/
theorem Exec.exists_of_events {vis : σ → α → Option ε} {tr : List (σ × α)} {s : σ} {l l' : List ε}
    {e : ε} (h : S.Exec tr s) (he : events vis tr = l ++ e :: l') :
    ∃ tr' s₁ a s₂, S.Exec tr' s₁ ∧ S.step s₁ a s₂ ∧ events vis tr' = l ∧ vis s₁ a = some e := by
  induction h generalizing l' with
  | init => simp at he
  | @snoc tr s a s' hx hs ih =>
    rcases events_snoc_eq he with ⟨hv, -, hl⟩ | ⟨l'', hl, -⟩
    · exact ⟨tr, s, a, s', hx, hs, hl, hv⟩
    · exact ih hl

/-- **What holds since an event.**  Let `K` hold after every step that shows `e₀`,
    and be kept by the steps that do not show a `stop`.  Then `K` holds at the
    end of a run that has shown `e₀`, and no `stop` since. -/
theorem Exec.since {vis : σ → α → Option ε} {K : σ → Prop} {e₀ : ε} (stop : ε → Prop)
    (hstart : ∀ s a s', S.Reachable s → S.step s a s' → vis s a = some e₀ → K s')
    (hkeep : ∀ s a s', S.Reachable s → K s → S.step s a s' →
      (∀ e, vis s a = some e → ¬ stop e) → K s')
    {tr : List (σ × α)} {s : σ} (h : S.Exec tr s) {l l' : List ε}
    (he : events vis tr = l ++ e₀ :: l') (hl : ∀ e ∈ l', ¬ stop e) : K s := by
  induction h generalizing l' with
  | init => simp at he
  | @snoc tr s a s' hx hs ih =>
    rcases events_snoc_eq he with ⟨hv, -, -⟩ | ⟨l'', hbefore, rfl⟩
    · exact hstart _ _ _ ⟨_, hx⟩ hs hv
    · have hk : K s := ih hbefore fun e h => hl e (List.mem_append_left _ h)
      refine hkeep _ _ _ ⟨_, hx⟩ hk hs ?_
      intro e hv
      exact hl e (List.mem_append_right _ (Option.mem_toList.2 hv))

/-- The first member of a list with the property `P`. -/
theorem exists_first {P : ε → Prop} {l : List ε} {e : ε} (he : e ∈ l) (h : P e) :
    ∃ l₁ x l₂, l = l₁ ++ x :: l₂ ∧ P x ∧ ∀ y ∈ l₁, ¬ P y := by
  induction l with
  | nil => cases he
  | cons y l ih =>
    by_cases hy : P y
    · exact ⟨[], y, l, rfl, hy, by simp⟩
    · rcases List.mem_cons.1 he with rfl | he
      · exact absurd h hy
      · obtain ⟨l₁, x, l₂, rfl, hx, hl⟩ := ih he
        refine ⟨y :: l₁, x, l₂, rfl, hx, fun z hz => ?_⟩
        rcases List.mem_cons.1 hz with rfl | hz
        · exact hy
        · exact hl z hz

end Transition.System
