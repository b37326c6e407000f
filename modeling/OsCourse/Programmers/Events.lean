/-
  The programmers: what an observer sees of a run, and that the loop with the
  mutex and the loop with atomic calls have the same traces.
-/
import OsCourse.Lib.Traces
import OsCourse.Programmers.Mutex

namespace Programmers

open Transition

/-- What an observer sees. -/
inductive Event where
  /-- `get_task` has handed `task` to `p` -/
  | taken (p : Proger) (task : ℤ)
  /-- `p` has drawn a reviewer -/
  | reviewer (p r : Proger)
  /-- the verdict of `p` on the program of `q`; `again` for a re-review -/
  | verdict (p q : Proger) (again isCorrect : Bool)
  /-- `add_task` has put `task` into the queue of `q` -/
  | added (q : Proger) (task : ℤ)
  deriving DecidableEq

theorem toNat_lt {task : ℤ} (h : 0 ≤ task ∧ task < numProgs) : task.toNat < numProgs := by
  omega

theorem toNat_sub_lt {task : ℤ} (h : numProgs ≤ task ∧ task < 2 * numProgs) : (task - numProgs).toNat < numProgs := by
  omega

/-- Whose program `task` is, and whether it is for a re-review; `none` for the
    tasks that get no verdict. -/
def verdictOn (task : ℤ) : Option (Proger × Bool) :=
  if h : 0 ≤ task ∧ task < numProgs then some (⟨task.toNat, toNat_lt h⟩, false)
  else if h : numProgs ≤ task ∧ task < 2 * numProgs then
    some (⟨(task - numProgs).toNat, toNat_sub_lt h⟩, true)
  else none

/-- What is seen of a step of a programmer at `pc`, where `got` is what `get_task`
    returns. -/
def eventOf (pc : Pc) (got : ℤ) : Label → Option Event
  | .getTask p => some (.taken p got)
  | .choose p (.reviewer r) => some (.reviewer p r)
  | .choose p (.verdict ok) =>
    match pc with
    | .hold task => (verdictOn task).map fun v => .verdict p v.1 v.2 ok
    | _ => none
  | .addTask _ =>
    match pc with
    | .add _ target sent => some (.added target sent)
    | _ => none
  | _ => none

/-- The process that takes the step. -/
def Label.proger : Label → Proger
  | .semWait p | .getTask p | .choose p _ | .addTask p | .semPost p => p

def event (s : State) (a : Label) : Option Event :=
  eventOf (s.pc a.proger) (getTask s.buffer a.proger).1 a

theorem verdictOn_eq {task : ℤ} {q : Proger} {again : Bool} :
    verdictOn task = some (q, again) ↔ task = if again then (q : ℤ) + numProgs else q := by
  have hn : numProgs = 3 := rfl
  have hq := q.lt
  unfold verdictOn
  constructor
  · intro h
    split_ifs at h with h1 h2
    · obtain ⟨rfl, rfl⟩ := Prod.mk.inj (Option.some.inj h)
      simpa using h1.1
    · obtain ⟨rfl, rfl⟩ := Prod.mk.inj (Option.some.inj h)
      simp only [if_true]; omega
  · rintro rfl
    cases again with
    | false =>
      have h1 : (0 : ℤ) ≤ q ∧ (q : ℤ) < numProgs := by omega
      simp [h1]
    | true =>
      have h1 : ¬ ((0 : ℤ) ≤ (q : ℤ) + numProgs ∧ (q : ℤ) + numProgs < numProgs) := by omega
      have h2 : (numProgs : ℤ) ≤ (q : ℤ) + numProgs ∧ (q : ℤ) + numProgs < 2 * numProgs := by omega
      simp only [if_true]
      rw [dif_neg h1, dif_pos h2]
      simp

/-- The branches after a negative verdict, and after a positive one. -/
theorem branch_verdict (r q : Proger) (again ok : Bool) :
    branch r (if again then (q : ℤ) + numProgs else q) (.verdict ok) =
      some (some (if ok then (q, -1) else (r, (q : ℤ) + numProgs))) := by
  have hn : numProgs = 3 := rfl
  have hq := q.lt
  cases again with
  | false =>
    have h1 : (0 : ℤ) ≤ q ∧ (q : ℤ) < numProgs := by omega
    cases ok <;> simp [branch, h1]
  | true =>
    have h1 : ¬ ((0 : ℤ) ≤ (q : ℤ) + numProgs ∧ (q : ℤ) + numProgs < numProgs) := by omega
    have h2 : (numProgs : ℤ) ≤ (q : ℤ) + numProgs ∧ (q : ℤ) + numProgs < 2 * numProgs := by omega
    simp only [branch, if_true, dif_neg h1, dif_pos h2]
    cases ok <;> simp

/-- **What each event comes from.** -/
theorem event_cases {s : State} {a : Label} {e : Event} (h : event s a = some e) :
    (∃ p, a = .getTask p ∧ e = .taken p (getTask s.buffer p).1) ∨
    (∃ p r, a = .choose p (.reviewer r) ∧ e = .reviewer p r) ∨
    (∃ p q again ok, a = .choose p (.verdict ok) ∧
      s.pc p = .hold (if again then (q : ℤ) + numProgs else q) ∧ e = .verdict p q again ok) ∨
    (∃ p task target sent, a = .addTask p ∧ s.pc p = .add task target sent ∧
      e = .added target sent) := by
  cases a with
  | getTask p => exact .inl ⟨p, rfl, (Option.some.inj h).symm⟩
  | choose p c =>
    cases c with
    | reviewer r => exact .inr (.inl ⟨p, r, rfl, (Option.some.inj h).symm⟩)
    | verdict ok =>
      simp only [event, eventOf, Label.proger] at h
      split at h
      · next task hpc =>
        obtain ⟨⟨q, again⟩, hv, rfl⟩ := Option.map_eq_some_iff.1 h
        rw [verdictOn_eq] at hv
        exact .inr (.inr (.inl ⟨p, q, again, ok, rfl, hv ▸ hpc, rfl⟩))
      · cases h
    | skip => cases h
  | addTask p =>
    simp only [event, eventOf, Label.proger] at h
    split at h
    · exact .inr (.inr (.inr ⟨p, _, _, _, rfl, ‹_›, (Option.some.inj h).symm⟩))
    · cases h
  | semWait | semPost => cases h

namespace Mutex

def event (s : State) (a : Label) : Option Event := a.abs.bind (Programmers.event s.abs)

/-- The loop with the mutex is simulated by the loop with atomic calls. -/
theorem simulation_abs :
    system.Simulation Programmers.system event Programmers.event fun s t => t = s.abs where
  init s hs := ⟨_, rfl, by rw [show s = initial from hs]; rfl⟩
  step := by
    rintro s a s' _ - rfl hs
    rcases step_label hs with ⟨ha, h⟩ | ⟨b, ha, h⟩
    · exact ⟨[], _, .nil _, by simp [event, ha], h.symm⟩
    · exact ⟨_, _, .single h, by simp [event, ha], rfl⟩

/-! ## From the loop with atomic calls -/

/-- Where a programmer is when the call in question has not taken the mutex yet. -/
def Pc.ofAtomic : Programmers.Pc → Pc
  | .wait => .wait
  | .get => .getLock
  | .hold task => .hold task
  | .add task target sent => .addLock task target sent
  | .post target => .post target

/-- The state with the mutex open. -/
def State.ofAtomic (t : Programmers.State) : State where
  buffer := t.buffer
  sems := t.sems
  mutex := 1
  pc p := Pc.ofAtomic (t.pc p)

theorem ofAtomic_update (buffer : SharedMem) (sems : Proger → ℕ) (f : Proger → Programmers.Pc)
    (p : Proger) (pc : Programmers.Pc) :
    State.ofAtomic ⟨buffer, sems, Function.update f p pc⟩ =
      ⟨buffer, sems, 1, Function.update (fun q => Pc.ofAtomic (f q)) p (Pc.ofAtomic pc)⟩ := by
  simp only [State.ofAtomic, State.mk.injEq, true_and]
  exact Function.comp_update Pc.ofAtomic f p pc

theorem ofAtomic_abs (t : Programmers.State) : (State.ofAtomic t).abs = t := by
  have : ∀ pc : Programmers.Pc, (Pc.ofAtomic pc).abs = pc := by
    intro pc; cases pc <;> rfl
  simp [State.abs, State.ofAtomic, this]

theorem event_ofAtomic {t : Programmers.State} {u : State} {a : Label} {b : Programmers.Label}
    (ha : a.abs = some b) (hu : u.abs = t) : event u a = Programmers.event t b := by
  rw [event, ha, hu]; rfl

/-- A call with the mutex taken before and given back after shows what the
    atomic call shows. -/
theorem steps_locked {t t' : Programmers.State} {u v : State} {p : Proger} {a : Label}
    {b : Programmers.Label} (ha : a.abs = some b) (h1 : step (.ofAtomic t) (.lock p) = some u)
    (h2 : step u a = some v) (h3 : step v (.unlock p) = some (.ofAtomic t')) :
    ∃ tr, system.Steps (.ofAtomic t) tr (.ofAtomic t') ∧
      System.events event tr = (Programmers.event t b).toList := by
  refine ⟨_, .cons h1 (.cons h2 (.single h3)), ?_⟩
  have hu : u.abs = t := by
    rcases step_label h1 with ⟨-, h⟩ | ⟨b, hb, -⟩
    · exact h.trans (ofAtomic_abs t)
    · cases hb
  have h1' : event (.ofAtomic t) (.lock p) = none := rfl
  have h3' : event v (.unlock p) = none := rfl
  simp [h1', h3', event_ofAtomic ha hu]

/-- **A step with atomic calls is a few steps with the mutex**: the calls take it
    before and give it back after. -/
theorem steps_ofAtomic {t t' : Programmers.State} {b : Programmers.Label}
    (h : Programmers.step t b = some t') :
    ∃ tr, system.Steps (.ofAtomic t) tr (.ofAtomic t') ∧
      System.events event tr = (Programmers.event t b).toList := by
  have single : ∀ a : Label, a.abs = some b → step (.ofAtomic t) a = some (.ofAtomic t') →
      ∃ tr, system.Steps (.ofAtomic t) tr (.ofAtomic t') ∧
        System.events event tr = (Programmers.event t b).toList := by
    intro a ha hs
    exact ⟨_, .single hs, by simp [event_ofAtomic ha (ofAtomic_abs t)]⟩
  obtain ⟨p, rfl, hpc, hpos, rfl⟩ | ⟨p, rfl, hpc, rfl⟩ | ⟨p, c, task, m, rfl, hpc, hb, rfl⟩ |
    ⟨p, task, target, sent, rfl, hpc, rfl⟩ | ⟨p, target, rfl, hpc, rfl⟩ := step_cases h
  · -- `sem_wait`
    refine single (.semWait p) rfl ?_
    rw [ofAtomic_update]
    simp only [step, State.ofAtomic, hpc, Pc.ofAtomic]
    exact if_pos hpos
  · -- `get_task`
    refine steps_locked (p := p) (a := .getTask p) rfl
      (u := ⟨t.buffer, t.sems, 0, Function.update (fun q => Pc.ofAtomic (t.pc q)) p .get⟩)
      (v := ⟨(getTask t.buffer p).2, t.sems, 0, Function.update (fun q => Pc.ofAtomic (t.pc q)) p
        (.getUnlock (getTask t.buffer p).1)⟩) ?_ ?_ ?_
    · simp only [step, State.ofAtomic, hpc, Pc.ofAtomic]; rfl
    · simp only [step, Function.update_self, Function.update_idem]
    · rw [ofAtomic_update]
      simp only [step, Function.update_self, Function.update_idem]; rfl
  · -- the branches
    refine single (.choose p c) rfl ?_
    rw [ofAtomic_update]
    have hm : Pc.ofAtomic (Programmers.afterBranch task m) = afterBranch task m := by
      rcases m with _ | ⟨target, sent⟩ <;> rfl
    rw [hm]
    simp only [step, State.ofAtomic, hpc, Pc.ofAtomic, hb]; rfl
  · -- `add_task`
    refine steps_locked (p := p) (a := .addTask p) rfl
      (u := ⟨t.buffer, t.sems, 0, Function.update (fun q => Pc.ofAtomic (t.pc q)) p
        (.add task target sent)⟩)
      (v := ⟨addTask t.buffer target sent, t.sems, 0, Function.update (fun q => Pc.ofAtomic (t.pc q)) p
        (.addUnlock target)⟩) ?_ ?_ ?_
    · simp only [step, State.ofAtomic, hpc, Pc.ofAtomic]; rfl
    · simp only [step, Function.update_self, Function.update_idem]
    · rw [ofAtomic_update]
      simp only [step, Function.update_self, Function.update_idem]; rfl
  · -- `sem_post`
    refine single (.semPost p) rfl ?_
    rw [ofAtomic_update]
    simp only [step, State.ofAtomic, hpc, Pc.ofAtomic]

/-- The loop with atomic calls is simulated by the loop with the mutex. -/
theorem simulation_ofAtomic :
    Programmers.system.Simulation system Programmers.event event fun t s => s = .ofAtomic t where
  init t ht := ⟨_, rfl, by rw [show t = Programmers.initial from ht]; rfl⟩
  step := by
    rintro t b t' _ - rfl ht
    obtain ⟨tr, hst, hev⟩ := steps_ofAtomic ht
    exact ⟨tr, _, hst, hev, rfl⟩

end Mutex

end Programmers
