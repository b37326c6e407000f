/-
  The programmers (idz os 2/4-5): the loop of `run` with the mutex around
  `get_task` and `add_task`.  It refines the loop with atomic calls, and never
  comes to a deadlock.
-/
import OsCourse.Programmers.Tokens

namespace Programmers.Mutex

open Transition Counting

/-- Where a programmer is in the loop of `run`, calls on the mutex included. -/
inductive Pc where
  /-- at `sem_wait(sems[proger_num])` -/
  | wait
  /-- at `sem_wait(mutex)`, for `get_task` -/
  | getLock
  /-- before `get_task(buffer, proger_num)` -/
  | get
  /-- at `sem_post(mutex)`, after `get_task` -/
  | getUnlock (task : ℤ)
  /-- working on the task that `get_task` has returned -/
  | hold (task : ℤ)
  /-- at `sem_wait(mutex)`, for `add_task` -/
  | addLock (task : ℤ) (target : Proger) (sent : ℤ)
  /-- before `add_task(buffer, target, sent)` -/
  | add (task : ℤ) (target : Proger) (sent : ℤ)
  /-- at `sem_post(mutex)`, after `add_task` -/
  | addUnlock (target : Proger)
  /-- before `sem_post(sems[target])` -/
  | post (target : Proger)
  deriving DecidableEq

/-- Between `sem_wait(mutex)` and `sem_post(mutex)`. -/
def Pc.locked : Pc → Bool
  | .get | .getUnlock _ | .add _ _ _ | .addUnlock _ => true
  | _ => false

/-- The same place in the loop with atomic calls. -/
def Pc.abs : Pc → Programmers.Pc
  | .wait => .wait
  | .getLock | .get => .get
  | .getUnlock task | .hold task => .hold task
  | .addLock task target sent | .add task target sent => .add task target sent
  | .addUnlock target | .post target => .post target

/-- Where the branches end. -/
def afterBranch (task : ℤ) : Option (Proger × ℤ) → Pc
  | some (target, sent) => .addLock task target sent
  | none => .wait

structure State where
  buffer : SharedMem
  sems : Proger → ℕ
  mutex : ℕ
  pc : Proger → Pc

inductive Label where
  | semWait (p : Proger)
  | lock (p : Proger)
  | getTask (p : Proger)
  | choose (p : Proger) (c : Choice)
  | addTask (p : Proger)
  | unlock (p : Proger)
  | semPost (p : Proger)
  deriving DecidableEq

/-- Past `sem_wait(mutex)`. -/
def Pc.lock : Pc → Option Pc
  | .getLock => some .get
  | .addLock task target sent => some (.add task target sent)
  | _ => none

/-- Past `sem_post(mutex)`. -/
def Pc.unlock : Pc → Option Pc
  | .getUnlock task => some (.hold task)
  | .addUnlock target => some (.post target)
  | _ => none

/-- A step of one of the three processes. -/
def step (s : State) : Label → Option State
  | .semWait p =>
    match s.pc p with
    | .wait =>
      if 0 < s.sems p then
        some { s with sems := Function.update s.sems p (s.sems p - 1)
                      pc := Function.update s.pc p .getLock }
      else none
    | _ => none
  | .lock p =>
    if 0 < s.mutex then
      (s.pc p).lock.map fun pc =>
        { s with mutex := s.mutex - 1, pc := Function.update s.pc p pc }
    else none
  | .getTask p =>
    match s.pc p with
    | .get =>
      let r := Programmers.getTask s.buffer p
      some { s with buffer := r.2, pc := Function.update s.pc p (.getUnlock r.1) }
    | _ => none
  | .choose p c =>
    match s.pc p with
    | .hold task =>
      (branch p task c).map fun m => { s with pc := Function.update s.pc p (afterBranch task m) }
    | _ => none
  | .addTask p =>
    match s.pc p with
    | .add _ target sent =>
      some { s with buffer := Programmers.addTask s.buffer target sent
                    pc := Function.update s.pc p (.addUnlock target) }
    | _ => none
  | .unlock p =>
    (s.pc p).unlock.map fun pc =>
      { s with mutex := s.mutex + 1, pc := Function.update s.pc p pc }
  | .semPost p =>
    match s.pc p with
    | .post target =>
      some { s with sems := Function.update s.sems target (s.sems target + 1)
                    pc := Function.update s.pc p .wait }
    | _ => none

/-- The state in which `main` forks the programmers; the mutex is open. -/
def initial : State where
  buffer := Programmers.initial.buffer
  sems := Programmers.initial.sems
  mutex := 1
  pc := fun _ => .wait

def system : System State Label := System.ofFn initial step

/-! ## Refinement -/

/-- The state of the loop with atomic calls. -/
def State.abs (s : State) : Programmers.State where
  buffer := s.buffer
  sems := s.sems
  pc p := (s.pc p).abs

/-- One programmer moves to `pc`. -/
theorem abs_update (buffer : SharedMem) (sems : Proger → ℕ) (mutex : ℕ) (f : Proger → Pc)
    (p : Proger) (pc : Pc) :
    State.abs ⟨buffer, sems, mutex, Function.update f p pc⟩ =
      ⟨buffer, sems, Function.update (fun q => (f q).abs) p pc.abs⟩ := by
  simp only [State.abs, Programmers.State.mk.injEq, true_and]
  exact Function.comp_update Pc.abs f p pc

theorem abs_pc {s : State} {p : Proger} {pc : Pc} (h : s.pc p = pc) : s.abs.pc p = pc.abs :=
  congrArg Pc.abs h

/-- A programmer moves on without a step of the loop with atomic calls. -/
theorem abs_stutter {s : State} {p : Proger} {pc : Pc} (mutex : ℕ) (h : pc.abs = (s.pc p).abs) :
    State.abs { s with mutex := mutex, pc := Function.update s.pc p pc } = s.abs := by
  rw [abs_update, h]
  simp [State.abs]

theorem abs_afterBranch (task : ℤ) (m : Option (Proger × ℤ)) :
    (afterBranch task m).abs = Programmers.afterBranch task m := by
  rcases m with _ | ⟨target, sent⟩ <;> rfl

theorem abs_lock {pc pc' : Pc} (h : pc.lock = some pc') :
    pc'.abs = pc.abs ∧ pc.locked = false ∧ pc'.locked = true := by
  cases pc <;> simp only [Pc.lock, Option.some.injEq, reduceCtorEq] at h <;> subst h <;>
    exact ⟨rfl, rfl, rfl⟩

theorem abs_unlock {pc pc' : Pc} (h : pc.unlock = some pc') :
    pc'.abs = pc.abs ∧ pc.locked = true ∧ pc'.locked = false := by
  cases pc <;> simp only [Pc.unlock, Option.some.injEq, reduceCtorEq] at h <;> subst h <;>
    exact ⟨rfl, rfl, rfl⟩

/-- The step of the loop with atomic calls, if the step is not one on the mutex. -/
def Label.abs : Label → Option Programmers.Label
  | .semWait p => some (.semWait p)
  | .getTask p => some (.getTask p)
  | .choose p c => some (.choose p c)
  | .addTask p => some (.addTask p)
  | .semPost p => some (.semPost p)
  | .lock _ | .unlock _ => none

/-- **The steps on the mutex do nothing to the loop with atomic calls**, and the
    others are its steps. -/
theorem step_label {s s' : State} {a : Label} (h : step s a = some s') :
    (a.abs = none ∧ s'.abs = s.abs) ∨
      ∃ b, a.abs = some b ∧ Programmers.step s.abs b = some s'.abs := by
  cases a with
  | lock p =>
    simp only [step] at h
    split at h
    · obtain ⟨pc, hpc, rfl⟩ := Option.map_eq_some_iff.1 h
      exact .inl ⟨rfl, abs_stutter _ (abs_lock hpc).1⟩
    · cases h
  | unlock p =>
    simp only [step] at h
    obtain ⟨pc, hpc, rfl⟩ := Option.map_eq_some_iff.1 h
    exact .inl ⟨rfl, abs_stutter _ (abs_unlock hpc).1⟩
  | semWait p =>
    simp only [step] at h
    split at h
    · next hpc =>
      split at h
      · next hpos =>
        obtain rfl := Option.some.inj h
        refine .inr ⟨.semWait p, rfl, ?_⟩
        rw [abs_update]
        simp only [Programmers.step, abs_pc hpc]
        exact if_pos hpos
      · cases h
    · cases h
  | choose p c =>
    simp only [step] at h
    split at h
    · next task hpc =>
      obtain ⟨m, hm, rfl⟩ := Option.map_eq_some_iff.1 h
      refine .inr ⟨.choose p c, rfl, ?_⟩
      rw [abs_update, abs_afterBranch]
      simp only [Programmers.step, abs_pc hpc, Pc.abs, hm]; rfl
    · cases h
  | getTask p | addTask p | semPost p =>
    simp only [step] at h
    split at h
    · next hpc =>
      obtain rfl := Option.some.inj h
      refine .inr ⟨_, rfl, ?_⟩
      rw [abs_update]
      simp only [Programmers.step, abs_pc hpc]; rfl
    · cases h

/-- **The loop with the mutex refines the loop with atomic calls.** -/
theorem reachable_abs {s : State} (h : system.Reachable s) :
    Programmers.system.Reachable s.abs :=
  System.Reachable.map State.abs (fun _ hs => by rw [show _ = initial from hs]; rfl)
    (fun _ _ _ _ hs => by
      rcases step_label hs with ⟨-, h⟩ | ⟨b, -, h⟩
      · exact .inl h
      · exact .inr ⟨b, h⟩) h

/-! ## Mutual exclusion -/

theorem locked_update {f : Proger → Pc} {p : Proger} {pc : Pc} (h : pc.locked = (f p).locked) :
    num (fun q => (Function.update f p pc q).locked = true) = num fun q => (f q).locked = true := by
  have := num_update (fun x : Pc => x.locked = true) f p pc
  rw [h] at this
  exact Nat.add_right_cancel this

theorem mutex_step {s s' : State} {a : Label} (h : step s a = some s')
    (hm : s.mutex + num (fun q => (s.pc q).locked = true) = 1) :
    s'.mutex + num (fun q => (s'.pc q).locked = true) = 1 := by
  cases a with
  | lock p =>
    simp only [step] at h
    split at h
    · obtain ⟨pc, hpc, rfl⟩ := Option.map_eq_some_iff.1 h
      obtain ⟨-, h1, h2⟩ := abs_lock hpc
      have := num_update (fun x : Pc => x.locked = true) s.pc p pc
      simp only [h1, h2, Bool.false_eq_true, if_false, if_true] at this ⊢
      omega
    · cases h
  | unlock p =>
    simp only [step] at h
    obtain ⟨pc, hpc, rfl⟩ := Option.map_eq_some_iff.1 h
    obtain ⟨-, h1, h2⟩ := abs_unlock hpc
    have := num_update (fun x : Pc => x.locked = true) s.pc p pc
    simp only [h1, h2, Bool.false_eq_true, if_false, if_true] at this ⊢
    omega
  | semWait p =>
    simp only [step] at h
    split at h
    · next hpc =>
      split at h
      · obtain rfl := Option.some.inj h
        rw [locked_update (by rw [hpc]; rfl)]; exact hm
      · cases h
    · cases h
  | choose p c =>
    simp only [step] at h
    split at h
    · next task hpc =>
      obtain ⟨m, -, rfl⟩ := Option.map_eq_some_iff.1 h
      rw [locked_update (by rw [hpc]; rcases m with _ | ⟨target, sent⟩ <;> rfl)]; exact hm
    · cases h
  | getTask p | addTask p | semPost p =>
    simp only [step] at h
    split at h
    · next hpc =>
      obtain rfl := Option.some.inj h
      rw [locked_update (by rw [hpc]; rfl)]; exact hm
    · cases h

/-- **Mutual exclusion**: the mutex is open, or exactly one programmer is
    between `sem_wait(mutex)` and `sem_post(mutex)`. -/
theorem mutex_reachable {s : State} (h : system.Reachable s) :
    s.mutex + num (fun q => (s.pc q).locked = true) = 1 :=
  System.Inductive.reachable (S := system)
    (J := fun s => s.mutex + num (fun q => (s.pc q).locked = true) = 1)
    ⟨fun _ hs => by rw [show _ = initial from hs]; decide, fun _ _ _ hm hs => mutex_step hs hm⟩ h

/-! ## Deadlock freedom -/

/-- The process that takes the step. -/
def Label.proger : Label → Proger
  | .semWait p | .lock p | .getTask p | .choose p _ | .addTask p | .unlock p | .semPost p => p

/-- The process `p` can take a step. -/
def Enabled (s : State) (p : Proger) : Prop := ∃ a s', a.proger = p ∧ step s a = some s'

/-- `run` has a branch for every task. -/
theorem exists_branch (p : Proger) (task : ℤ) : ∃ c m, branch p task c = some m := by
  by_cases h1 : task = -1
  · obtain ⟨r, hr⟩ : ∃ r : Proger, r ≠ p := exists_ne p
    exact ⟨.reviewer r, _, if_pos ⟨h1, hr⟩⟩
  by_cases h2 : 0 ≤ task ∧ task < numProgs
  · exact ⟨.verdict true, _, by simp only [branch, dif_pos h2]; rfl⟩
  by_cases h3 : numProgs ≤ task ∧ task < 2 * numProgs
  · exact ⟨.verdict true, _, by simp only [branch, dif_neg h2, dif_pos h3]; rfl⟩
  · have hn : numProgs = 3 := rfl
    exact ⟨.skip, none, if_neg (by omega)⟩

/-- Only `sem_wait` can stop a programmer. -/
theorem enabled_of {s : State} {p : Proger} (hw : s.pc p = .wait → 0 < s.sems p)
    (hl : (s.pc p).lock.isSome → 0 < s.mutex) : Enabled s p := by
  cases hpc : s.pc p with
  | wait => exact ⟨.semWait p, _, rfl, by simp only [step, hpc]; exact if_pos (hw hpc)⟩
  | getLock =>
    have : 0 < s.mutex := hl (by rw [hpc]; rfl)
    exact ⟨.lock p, _, rfl, by simp only [step, this, if_true, hpc]; rfl⟩
  | addLock task target sent =>
    have : 0 < s.mutex := hl (by rw [hpc]; rfl)
    exact ⟨.lock p, _, rfl, by simp only [step, this, if_true, hpc]; rfl⟩
  | hold task =>
    obtain ⟨c, m, hb⟩ := exists_branch p task
    exact ⟨.choose p c, _, rfl, by simp only [step, hpc, hb]; rfl⟩
  | get => exact ⟨.getTask p, _, rfl, by simp only [step, hpc]; rfl⟩
  | add task target sent => exact ⟨.addTask p, _, rfl, by simp only [step, hpc]; rfl⟩
  | getUnlock task => exact ⟨.unlock p, _, rfl, by simp only [step, hpc]; rfl⟩
  | addUnlock target => exact ⟨.unlock p, _, rfl, by simp only [step, hpc]; rfl⟩
  | post target => exact ⟨.semPost p, _, rfl, by simp only [step, hpc]; rfl⟩

/-- The tasks already added to the queue of `p` that are not posted yet. -/
def unposted (s : State) (p : Proger) : ℕ := num fun r => s.pc r = .addUnlock p ∨ s.pc r = .post p

/-- The `sem_wait(sems[p])` already passed whose `get_task` has not run yet. -/
def ungot (s : State) (p : Proger) : ℕ := if s.pc p = .getLock ∨ s.pc p = .get then 1 else 0

theorem unposted_abs (s : State) (p : Proger) : Programmers.unposted s.abs p = unposted s p := by
  refine num_congr fun r => ?_
  cases hpc : s.pc r <;> simp [State.abs, hpc, Pc.abs]

theorem ungot_abs (s : State) (p : Proger) : Programmers.ungot s.abs p = ungot s p := by
  unfold Programmers.ungot ungot
  cases hpc : s.pc p <;> simp [State.abs, hpc, Pc.abs]

/-- When all programmers wait, one of them has a task to wake up for. -/
theorem exists_sem_pos {s : State} (h : system.Reachable s) (hw : ∀ p, s.pc p = .wait) :
    ∃ p, 0 < s.sems p := by
  by_contra hno
  have hi := inv_reachable (reachable_abs h)
  have htasks : ∀ p, s.abs.tasks p = [] := by
    intro p
    have h1 := hi.sems p
    have h2 : unposted s p = 0 := by simp [unposted, num, hw]
    have h3 : ungot s p = 0 := by simp [ungot, hw]
    have h4 : s.sems p = 0 := by by_contra hne; exact hno ⟨p, Nat.pos_of_ne_zero hne⟩
    rw [unposted_abs, ungot_abs, h2, h3, show s.abs.sems p = 0 from h4] at h1
    simp only [Programmers.State.tasks, abs_pc (hw p), Pc.abs, Programmers.Pc.hand,
      List.append_nil]
    exact List.eq_nil_of_length_eq_zero h1
  have := hi.total
  simp [weigh, htasks] at this

/-- **The accounting of the semaphores, and no deadlock.**  In every reachable
    state the length of each queue is the value of its semaphore, plus the tasks
    added and not yet posted, plus the `sem_wait` passed whose `get_task` has
    not run yet; no queue is empty when it is read; and some process can take a
    step. -/
theorem accounting_no_deadlock {s : State} (h : system.Reachable s) :
    (∀ p, (s.buffer.tasks p).length = s.sems p + unposted s p + ungot s p) ∧
      (∀ p, s.pc p = .get → s.buffer.tasks p ≠ []) ∧ ∃ p, Enabled s p := by
  have hi := inv_reachable (reachable_abs h)
  refine ⟨fun p => ?_, fun p hp => hi.get_ne_nil (abs_pc hp), ?_⟩
  · have := hi.sems p
    rwa [unposted_abs, ungot_abs] at this
  by_cases hl : ∃ p, (s.pc p).locked = true
  · -- the owner of the mutex is not stopped
    obtain ⟨p, hp⟩ := hl
    refine ⟨p, enabled_of (fun h => by simp [h, Pc.locked] at hp) fun h => ?_⟩
    cases hpc : s.pc p <;> simp [hpc, Pc.locked, Pc.lock] at hp h
  · have hm : 0 < s.mutex := by
      have := mutex_reachable h
      have h0 : num (fun q => (s.pc q).locked = true) = 0 := by
        by_contra hne; exact hl (exists_of_num_pos (Nat.pos_of_ne_zero hne))
      omega
    by_cases hw : ∀ p, s.pc p = .wait
    · obtain ⟨p, hp⟩ := exists_sem_pos h hw
      exact ⟨p, enabled_of (fun _ => hp) fun _ => hm⟩
    · obtain ⟨p, hp⟩ := not_forall.1 hw
      exact ⟨p, enabled_of (fun h => absurd h hp) fun _ => hm⟩

/-- Programmer 0 has added its program to the queue of programmer 1, and still
    holds the mutex. -/
theorem accounting_no_deadlock_added : ∃ s, s.buffer.tasks 1 = [-1, 0] ∧ s.mutex = 0 ∧
    (∀ p, (s.buffer.tasks p).length = s.sems p + unposted s p + ungot s p) ∧
      (∀ p, s.pc p = .get → s.buffer.tasks p ≠ []) ∧ ∃ p, Enabled s p :=
  ⟨_, by decide, rfl, accounting_no_deadlock (@System.reachable_runFn _ _ initial _ step
    [.semWait 0, .lock 0, .getTask 0, .unlock 0, .choose 0 (.reviewer 1), .lock 0, .addTask 0]
    rfl)⟩

end Programmers.Mutex
