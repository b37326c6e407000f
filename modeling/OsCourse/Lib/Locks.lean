/-
  Threads with exclusive, non-recursive locks that take one lock at a time: the locks are
  held where the program points say so, and there is no deadlock.
-/
import Mathlib.Logic.Function.Basic
import Mathlib.Tactic.Common

namespace Locks

universe u v w
variable {σ : Type u} {T : Type v} {L : Type w}

/-- What a step does with the locks. -/
inductive Op (L : Type w) where
  | acquire (l : L)
  | release (l : L)
  | keep

/-- The data of the threads, and who holds which lock. -/
structure State (σ : Type u) (T : Type v) (L : Type w) where
  data : σ
  holder : L → Option T

/-- A step of a thread, where `next` is what it does next: a lock that is held makes it
    wait, also when it holds it itself. -/
def step [DecidableEq L] (next : σ → T → Option (Op L × σ)) (s : State σ T L) (t : T) : Option (State σ T L) :=
  (next s.data t).bind fun r =>
    match r.1 with
    | .acquire l =>
      if s.holder l = none then some { data := r.2, holder := Function.update s.holder l (some t) } else none
    | .release l => some { data := r.2, holder := Function.update s.holder l none }
    | .keep => some { data := r.2, holder := s.holder }

/-- The locks are held by the threads whose program points hold them, where `held d t` is
    the lock held at the program point of `t`. -/
def Agrees (held : σ → T → Option L) (s : State σ T L) : Prop :=
  ∀ l t, s.holder l = some t ↔ held s.data t = some l

/-- The program points of a step fit to what it does with the locks: a lock is taken where
    none is held, and the one that is held is given back. -/
structure Fits (held : σ → T → Option L) (d : σ) (t : T) (r : Op L × σ) : Prop where
  own : match r.1 with
    | .acquire l => held d t = none ∧ held r.2 t = some l
    | .release l => held d t = some l ∧ held r.2 t = none
    | .keep => held r.2 t = held d t
  others : ∀ t', t' ≠ t → held r.2 t' = held d t'

variable {next : σ → T → Option (Op L × σ)} {held : σ → T → Option L}
  {s s' : State σ T L} {t : T}

/-- A thread that holds a lock does not request one: the threads of `d` take one lock at a
    time. -/
def OneAtATime (next : σ → T → Option (Op L × σ)) (held : σ → T → Option L) (d : σ) : Prop :=
  ∀ t l d', next d t = some (.acquire l, d') → held d t = none

/-- A thread that requests a lock holds none. -/
theorem Agrees.request (h : Agrees held s) (hone : OneAtATime next held s.data) {l l' : L} {d : σ}
    (hr : next s.data t = some (.acquire l, d)) : s.holder l' ≠ some t := by
  intro hheld
  have hnone := hone t l d hr
  rw [(h l' t).1 hheld] at hnone
  cases hnone

variable [DecidableEq L]

/-- **Steps that fit keep the locks right.** -/
theorem Agrees.step (h : Agrees held s) (hfit : ∀ r, next s.data t = some r → Fits held s.data t r)
    (hs : Locks.step next s t = some s') : Agrees held s' := by
  obtain ⟨⟨op, d⟩, hr, hs⟩ := Option.bind_eq_some_iff.1 hs
  obtain ⟨hown, hothers⟩ := hfit _ hr
  cases op with
  | acquire l =>
    simp only at hs hown
    split_ifs at hs with hfree
    cases hs
    intro l' t'
    show Function.update s.holder l (some t) l' = some t' ↔ held d t' = some l'
    by_cases hl : l' = l
    · subst hl
      rw [Function.update_self]
      by_cases ht : t' = t
      · subst ht
        simp [hown.2]
      · have := (h l' t').not.1 (by rw [hfree]; simp)
        rw [hothers t' ht]
        simp [this, Ne.symm ht]
    · rw [Function.update_of_ne hl, h l' t']
      by_cases ht : t' = t
      · subst ht
        simp [hown.1, hown.2, Ne.symm hl]
      · rw [hothers t' ht]
  | release l =>
    simp only at hs hown
    cases hs
    intro l' t'
    show Function.update s.holder l none l' = some t' ↔ held d t' = some l'
    have hheld := (h l t).2 hown.1
    by_cases hl : l' = l
    · subst hl
      rw [Function.update_self]
      by_cases ht : t' = t
      · subst ht
        simp [hown.2]
      · have := (h l' t').not.1 (by rw [hheld]; simpa using Ne.symm ht)
        rw [hothers t' ht]
        simp [this]
    · rw [Function.update_of_ne hl, h l' t']
      by_cases ht : t' = t
      · subst ht
        simp [hown.1, hown.2, Ne.symm hl]
      · rw [hothers t' ht]
  | keep =>
    simp only at hs hown
    cases hs
    intro l' t'
    show s.holder l' = some t' ↔ held d t' = some l'
    rw [h l' t']
    by_cases ht : t' = t
    · subst ht
      rw [hown]
    · rw [hothers t' ht]

/-- **No deadlock.**  When the threads take one lock at a time, and one of them has not
    come to its end, one can go on: what it waits for is held by a thread that does not
    wait. -/
theorem Agrees.exists_step (h : Agrees held s) (hone : OneAtATime next held s.data)
    (hend : ∀ t l, held s.data t = some l → next s.data t ≠ none) (ht : next s.data t ≠ none) :
    ∃ t, (Locks.step next s t).isSome := by
  have hmove : ∀ t op d, next s.data t = some (op, d) → (∀ l, op = .acquire l → s.holder l = none) →
      (Locks.step next s t).isSome := by
    intro t op d hr hfree
    rw [Locks.step, hr, Option.bind_some]
    cases op with
    | acquire l => simp [hfree l rfl]
    | release l => rfl
    | keep => rfl
  obtain ⟨⟨op, d⟩, hr⟩ := Option.ne_none_iff_exists'.1 ht
  by_cases hfree : ∀ l, op = .acquire l → s.holder l = none
  · exact ⟨t, hmove t op d hr hfree⟩
  · -- the holder of the lock does not wait
    obtain ⟨l, rfl, hl⟩ : ∃ l, op = .acquire l ∧ s.holder l ≠ none := by
      simpa using hfree
    obtain ⟨t', ht'⟩ := Option.ne_none_iff_exists'.1 hl
    have hheld := (h l t').1 ht'
    obtain ⟨⟨op', d'⟩, hr'⟩ := Option.ne_none_iff_exists'.1 (hend t' l hheld)
    refine ⟨t', hmove t' op' d' hr' fun l' hl' => ?_⟩
    subst hl'
    rw [hone t' l' d' hr'] at hheld
    cases hheld

end Locks
