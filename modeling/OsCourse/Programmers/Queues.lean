/-
  The programmers (idz os 2/9 and 2/10): the loop of `run` with message queues of
  the kernel.  The branches are those of idz os 2/4-5; `add_task` and `get_task`
  are one system call each, and there is no mutex.
-/
import OsCourse.Programmers.Events

namespace Programmers.Queues

open Transition Counting System

/-- The system calls on one queue: what is sent last is received last.  `none`:
    the caller blocks. -/
structure Calls where
  /-- what `add_task` leaves in the queue -/
  send : List ℤ → ℤ → Option (List ℤ)
  /-- what `get_task` returns, and leaves in the queue -/
  receive : List ℤ → Option (ℤ × List ℤ)

structure State where
  queues : Proger → List ℤ
  sems : Proger → ℕ
  pc : Proger → Pc

variable (K : Calls)

/-- A step of one of the three processes. -/
def step (s : State) : Label → Option State
  | .semWait p =>
    match s.pc p with
    | .wait =>
      if 0 < s.sems p then
        some { s with sems := Function.update s.sems p (s.sems p - 1)
                      pc := Function.update s.pc p .get }
      else none
    | _ => none
  | .getTask p =>
    match s.pc p with
    | .get =>
      (K.receive (s.queues p)).map fun r =>
        { s with queues := Function.update s.queues p r.2
                 pc := Function.update s.pc p (.hold r.1) }
    | _ => none
  | .choose p c =>
    match s.pc p with
    | .hold task =>
      (branch p task c).map fun m => { s with pc := Function.update s.pc p (afterBranch task m) }
    | _ => none
  | .addTask p =>
    match s.pc p with
    | .add _ target sent =>
      (K.send (s.queues target) sent).map fun q =>
        { s with queues := Function.update s.queues target q
                 pc := Function.update s.pc p (.post target) }
    | _ => none
  | .semPost p =>
    match s.pc p with
    | .post target =>
      some { s with sems := Function.update s.sems target (s.sems target + 1)
                    pc := Function.update s.pc p .wait }
    | _ => none

/-- The three processes, started in the state `s₀`. -/
def system (s₀ : State) : System State Label := System.ofFn s₀ (step K)

/-- What is seen of a step. -/
def event (s : State) (a : Label) : Option Event :=
  eventOf (s.pc a.proger) (((K.receive (s.queues a.proger)).map Prod.fst).getD (-1)) a

variable {K}

/-- **What a step does.** -/
theorem step_cases {s s' : State} {a : Label} (h : step K s a = some s') :
    (∃ p, a = .semWait p ∧ s.pc p = .wait ∧ 0 < s.sems p ∧
      s' = { s with sems := Function.update s.sems p (s.sems p - 1)
                    pc := Function.update s.pc p .get }) ∨
    (∃ p r, a = .getTask p ∧ s.pc p = .get ∧ K.receive (s.queues p) = some r ∧
      s' = { s with queues := Function.update s.queues p r.2
                    pc := Function.update s.pc p (.hold r.1) }) ∨
    (∃ p c task m, a = .choose p c ∧ s.pc p = .hold task ∧ branch p task c = some m ∧
      s' = { s with pc := Function.update s.pc p (afterBranch task m) }) ∨
    (∃ p task target sent q, a = .addTask p ∧ s.pc p = .add task target sent ∧
      K.send (s.queues target) sent = some q ∧
      s' = { s with queues := Function.update s.queues target q
                    pc := Function.update s.pc p (.post target) }) ∨
    (∃ p target, a = .semPost p ∧ s.pc p = .post target ∧
      s' = { s with sems := Function.update s.sems target (s.sems target + 1)
                    pc := Function.update s.pc p .wait }) := by
  cases a with
  | semWait p =>
    simp only [step] at h
    split at h
    · split at h
      · exact .inl ⟨p, rfl, ‹_›, ‹_›, (Option.some.inj h).symm⟩
      · cases h
    · cases h
  | getTask p =>
    simp only [step] at h
    split at h
    · obtain ⟨r, hr, rfl⟩ := Option.map_eq_some_iff.1 h
      exact .inr (.inl ⟨p, r, rfl, ‹_›, hr, rfl⟩)
    · cases h
  | choose p c =>
    simp only [step] at h
    split at h
    · obtain ⟨m, hb, rfl⟩ := Option.map_eq_some_iff.1 h
      exact .inr (.inr (.inl ⟨p, c, _, m, rfl, ‹_›, hb, rfl⟩))
    · cases h
  | addTask p =>
    simp only [step] at h
    split at h
    · obtain ⟨q, hq, rfl⟩ := Option.map_eq_some_iff.1 h
      exact .inr (.inr (.inr (.inl ⟨p, _, _, _, q, rfl, ‹_›, hq, rfl⟩)))
    · cases h
  | semPost p =>
    simp only [step] at h
    split at h
    · exact .inr (.inr (.inr (.inr ⟨p, _, rfl, ‹_›, (Option.some.inj h).symm⟩)))
    · cases h

/-! ## Against the shared memory -/

/-- A queue for at least three messages: the calls neither block nor fail while
    there are fewer, and the messages come out in the order of arrival. -/
structure Calls.Fifo (K : Calls) : Prop where
  send : ∀ q t, q.length < numProgs → K.send q t = some (q ++ [t])
  receive : ∀ t q, K.receive (t :: q) = some (t, q)

/-- The queues of the kernel hold what the arrays of the shared memory hold. -/
def Sim (s : State) (t : Programmers.State) : Prop :=
  s.queues = t.buffer.tasks ∧ s.sems = t.sems ∧ s.pc = t.pc

theorem Sim.step {s s' : State} {t : Programmers.State} {a : Label} (hK : K.Fifo) (hi : Inv t)
    (h : Sim s t) (hs : step K s a = some s') :
    ∃ t', Programmers.step t a = some t' ∧ Sim s' t' ∧ event K s a = Programmers.event t a := by
  obtain ⟨queues, sems, pc⟩ := s
  obtain ⟨rfl, rfl, rfl⟩ := h
  obtain ⟨p, rfl, hpc, hpos, rfl⟩ | ⟨p, r, rfl, hpc, hr, rfl⟩ | ⟨p, c, task, m, rfl, hpc, hb, rfl⟩ |
    ⟨p, task, target, sent, q, rfl, hpc, hq, rfl⟩ | ⟨p, target, rfl, hpc, rfl⟩ := step_cases hs
  · -- `sem_wait`
    replace hpc : t.pc p = _ := hpc
    have hst : Programmers.step t (.semWait p) =
        some { t with sems := Function.update t.sems p (t.sems p - 1)
                      pc := Function.update t.pc p .get } := by
      simp only [Programmers.step, hpc]
      exact if_pos hpos
    exact ⟨_, hst, ⟨rfl, rfl, rfl⟩, rfl⟩
  · -- `get_task`: the queue is not empty
    replace hpc : t.pc p = _ := hpc
    obtain ⟨task, rest, ht⟩ := List.exists_cons_of_ne_nil (hi.get_ne_nil hpc)
    obtain ⟨h1, h2⟩ := tasks_getTask ht
    have hr' : K.receive (t.buffer.tasks p) = some (task, rest) := by rw [ht]; exact hK.receive task rest
    obtain rfl : (task, rest) = r := Option.some.inj (hr'.symm.trans hr)
    have hst : Programmers.step t (.getTask p) =
        some { t with buffer := (getTask t.buffer p).2, pc := Function.update t.pc p (.hold task) } := by
      simp only [Programmers.step, hpc, h1]
    refine ⟨_, hst, ⟨h2.symm, rfl, rfl⟩, ?_⟩
    simp only [event, Programmers.event, eventOf, Label.proger, hr', h1, Option.map_some,
      Option.getD_some]
  · -- the branches
    replace hpc : t.pc p = _ := hpc
    have hst : Programmers.step t (.choose p c) =
        some { t with pc := Function.update t.pc p (afterBranch task m) } := by
      simp only [Programmers.step, hpc, hb, Option.map_some]
    refine ⟨_, hst, ⟨rfl, rfl, rfl⟩, ?_⟩
    cases c <;> rfl
  · -- `add_task`: the queue has room
    replace hpc : t.pc p = _ := hpc
    have hlt := hi.length_add hpc
    obtain rfl : t.buffer.tasks target ++ [sent] = q :=
      Option.some.inj ((hK.send _ sent hlt).symm.trans hq)
    have hst : Programmers.step t (.addTask p) =
        some { t with buffer := addTask t.buffer target sent
                      pc := Function.update t.pc p (.post target) } := by
      simp only [Programmers.step, hpc]
    exact ⟨_, hst, ⟨(tasks_addTask_of_lt (hi.length_lt target)).symm, rfl, rfl⟩, rfl⟩
  · -- `sem_post`
    replace hpc : t.pc p = _ := hpc
    have hst : Programmers.step t (.semPost p) =
        some { t with sems := Function.update t.sems target (t.sems target + 1)
                      pc := Function.update t.pc p .wait } := by
      simp only [Programmers.step, hpc]
    exact ⟨_, hst, ⟨rfl, rfl, rfl⟩, rfl⟩

/-- The state of the kernel's objects before the processes start: an own task in
    every queue, and one post on every semaphore. -/
def initial : State where
  queues _ := [-1]
  sems _ := 1
  pc _ := .wait

theorem sim_initial : Sim initial Programmers.initial :=
  ⟨by funext p; rw [initial_tasks]; rfl, by funext p; rw [initial_sems]; rfl, rfl⟩

/-- **The loop with kernel queues is simulated by the loop with shared memory**,
    when the queues hold three messages. -/
theorem simulation (hK : K.Fifo) :
    (system K initial).Simulation Programmers.system (event K) Programmers.event Sim where
  init := by
    rintro s rfl
    exact ⟨_, rfl, sim_initial⟩
  step := by
    intro s a s' t ht h hs
    obtain ⟨t', hst, h', he⟩ := h.step hK (inv_reachable ht) hs
    exact ⟨_, t', .single hst, by simp [he], h'⟩

/-- **No call blocks or fails**: no queue is empty when it is read, and none has
    three messages when one is added. -/
theorem calls_ok (hK : K.Fifo) {s : State} (h : (system K initial).Reachable s) :
    (∀ p, s.pc p = .get → s.queues p ≠ []) ∧
      ∀ p task target sent, s.pc p = .add task target sent → (s.queues target).length < numProgs := by
  obtain ⟨t, ht, hq, -, hpc⟩ := (simulation hK).reachable h
  have hi := inv_reachable ht
  rw [hq, hpc]
  exact ⟨fun p hp => hi.get_ne_nil hp, fun _ _ _ _ hp => hi.length_add hp⟩

end Programmers.Queues
