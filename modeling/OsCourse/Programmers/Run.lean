/-
  The programmers (idz os 2/4-5): the loop of `run`, three processes interleaved.

  The mutex-protected calls of `add_task` and `get_task` are single steps here;
  `Programmers.Mutex` has the steps on the mutex, and shows that they refine
  these.
-/
import OsCourse.Lib.Transition
import OsCourse.Programmers.Tasks

namespace Programmers

open Transition

/-- Where a programmer is in the loop of `run`. -/
inductive Pc where
  /-- at `sem_wait(sems[proger_num])` -/
  | wait
  /-- before `get_task(buffer, proger_num)` -/
  | get
  /-- working on the task that `get_task` has returned -/
  | hold (task : ℤ)
  /-- done with the task, before `add_task(buffer, target, sent)` -/
  | add (task : ℤ) (target : Proger) (sent : ℤ)
  /-- before `sem_post(sems[target])` -/
  | post (target : Proger)
  deriving DecidableEq

/-- What is left to `rand()`: the reviewer of an own program, or the verdict on
    another one.  `skip` is the way past all branches. -/
inductive Choice where
  | reviewer (r : Proger)
  | verdict (isCorrect : Bool)
  | skip
  deriving DecidableEq

/-- The branches of `run` on `task`: what the programmer adds to which queue, if
    anything; `none` if the branch taken makes another choice. -/
def branch (progerNum : Proger) (task : ℤ) : Choice → Option (Option (Proger × ℤ))
  | .reviewer r =>
    -- `do { reviewer = rand() % NUM_PROGS; } while (reviewer == proger_num);`
    if task = -1 ∧ r ≠ progerNum then some (some (r, progerNum)) else none
  | .verdict isCorrect =>
    if h : 0 ≤ task ∧ task < numProgs then
      if isCorrect then some (some (⟨task.toNat, by omega⟩, -1))
      else some (some (progerNum, task + numProgs))
    else if h : numProgs ≤ task ∧ task < 2 * numProgs then
      let originalProger : Proger := ⟨(task - numProgs).toNat, by omega⟩
      if isCorrect then some (some (originalProger, -1))
      else some (some (progerNum, task))
    else none
  | .skip => if task = -1 ∨ (0 ≤ task ∧ task < 2 * numProgs) then none else some none

/-- Where the branches end. -/
def afterBranch (task : ℤ) : Option (Proger × ℤ) → Pc
  | some (target, sent) => .add task target sent
  | none => .wait

structure State where
  buffer : SharedMem
  sems : Proger → ℕ
  pc : Proger → Pc

inductive Label where
  | semWait (p : Proger)
  | getTask (p : Proger)
  | choose (p : Proger) (c : Choice)
  | addTask (p : Proger)
  | semPost (p : Proger)
  deriving DecidableEq

/-- A step of one of the three processes. -/
def step (s : State) : Label → Option State
  | .semWait p =>
    match s.pc p with
    | .wait =>
      if 0 < s.sems p then
        some { s with sems := Function.update s.sems p (s.sems p - 1)
                      pc := Function.update s.pc p .get }
      else none
    | _ => none
  | .getTask p =>
    match s.pc p with
    | .get =>
      let r := getTask s.buffer p
      some { s with buffer := r.2, pc := Function.update s.pc p (.hold r.1) }
    | _ => none
  | .choose p c =>
    match s.pc p with
    | .hold task =>
      (branch p task c).map fun m => { s with pc := Function.update s.pc p (afterBranch task m) }
    | _ => none
  | .addTask p =>
    match s.pc p with
    | .add _ target sent =>
      some { s with buffer := addTask s.buffer target sent
                    pc := Function.update s.pc p (.post target) }
    | _ => none
  | .semPost p =>
    match s.pc p with
    | .post target =>
      some { s with sems := Function.update s.sems target (s.sems target + 1)
                    pc := Function.update s.pc p .wait }
    | _ => none

/-- The shared memory when `main` has cleared it. -/
def SharedMem.clear : SharedMem where
  i := 0
  j := 0
  k := 0
  queue1 := Vector.replicate maxTasks (-1)
  queue2 := Vector.replicate maxTasks (-1)
  queue3 := Vector.replicate maxTasks (-1)

/-- One round of the loop of `main` that adds the initial tasks. -/
def addInitial (m : SharedMem × (Proger → ℕ)) (i : Proger) : SharedMem × (Proger → ℕ) :=
  (addTask m.1 i (-1), Function.update m.2 i (m.2 i + 1))

/-- The state in which `main` forks the programmers: one task -1 in every
    queue, and one post on every semaphore. -/
def initial : State :=
  let m := [0, 1, 2].foldl addInitial (SharedMem.clear, fun _ => 0)
  { buffer := m.1, sems := m.2, pc := fun _ => .wait }

/-- The three processes under any interleaving and any choices. -/
def system : System State Label := System.ofFn initial step

theorem initial_tasks (p : Proger) : initial.buffer.tasks p = [-1] := by
  revert p; decide

theorem initial_sems (p : Proger) : initial.sems p = 1 := by
  revert p; decide

/-- **What a step does.** -/
theorem step_cases {s s' : State} {a : Label} (h : step s a = some s') :
    (∃ p, a = .semWait p ∧ s.pc p = .wait ∧ 0 < s.sems p ∧
      s' = { s with sems := Function.update s.sems p (s.sems p - 1)
                    pc := Function.update s.pc p .get }) ∨
    (∃ p, a = .getTask p ∧ s.pc p = .get ∧
      s' = { s with buffer := (getTask s.buffer p).2
                    pc := Function.update s.pc p (.hold (getTask s.buffer p).1) }) ∨
    (∃ p c task m, a = .choose p c ∧ s.pc p = .hold task ∧ branch p task c = some m ∧
      s' = { s with pc := Function.update s.pc p (afterBranch task m) }) ∨
    (∃ p task target sent, a = .addTask p ∧ s.pc p = .add task target sent ∧
      s' = { s with buffer := addTask s.buffer target sent
                    pc := Function.update s.pc p (.post target) }) ∨
    (∃ p target, a = .semPost p ∧ s.pc p = .post target ∧
      s' = { s with sems := Function.update s.sems target (s.sems target + 1)
                    pc := Function.update s.pc p .wait }) := by
  cases a with
  | semWait p =>
    simp only [step] at h
    split at h
    · split at h
      · exact .inl ⟨p, rfl, ‹_›, ‹_›, (Option.some.inj h).symm⟩
      · cases h
    · cases h
  | getTask p =>
    simp only [step] at h
    split at h
    · exact .inr (.inl ⟨p, rfl, ‹_›, (Option.some.inj h).symm⟩)
    · cases h
  | choose p c =>
    simp only [step] at h
    split at h
    · obtain ⟨m, hb, rfl⟩ := Option.map_eq_some_iff.1 h
      exact .inr (.inr (.inl ⟨p, c, _, m, rfl, ‹_›, hb, rfl⟩))
    · cases h
  | addTask p =>
    simp only [step] at h
    split at h
    · exact .inr (.inr (.inr (.inl ⟨p, _, _, _, rfl, ‹_›, (Option.some.inj h).symm⟩)))
    · cases h
  | semPost p =>
    simp only [step] at h
    split at h
    · exact .inr (.inr (.inr (.inr ⟨p, _, rfl, ‹_›, (Option.some.inj h).symm⟩)))
    · cases h

end Programmers
