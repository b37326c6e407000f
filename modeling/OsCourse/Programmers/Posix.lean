/-
  The programmers (idz os 2/10): POSIX semaphores and message queues.  The
  initializer makes new ones, whatever an earlier run has left behind; the program
  then does what idz os 2/4-5 does, and no call on a queue blocks.
-/
import OsCourse.Programmers.Queues

namespace Programmers.Queues.Posix

open Transition System

/-- `mq_maxmsg` -/
abbrev maxMsg : ℕ := 10

/-- `mq_send` and `mq_receive` on a blocking queue, all messages at priority 0. -/
def calls : Calls where
  send q task := if q.length < maxMsg then some (q ++ [task]) else none
  receive
    | [] => none
    | task :: q => some (task, q)

/-- What the names `/prog_sem_%d` and `/prog_queue_%d` stand for. -/
structure Names where
  sems : Proger → Option ℕ
  queues : Proger → Option (List ℤ)

def semUnlink (n : Names) (i : Proger) : Names := { n with sems := Function.update n.sems i none }

def mqUnlink (n : Names) (i : Proger) : Names := { n with queues := Function.update n.queues i none }

/-- `sem_open` with `O_CREAT | O_EXCL` and the value 0: fails if the name is in use. -/
def semOpen (n : Names) (i : Proger) : Option Names :=
  if (n.sems i).isSome then none
  else some { n with sems := Function.update n.sems i (some 0) }

/-- `mq_open` with `O_CREAT | O_EXCL`: fails if the name is in use. -/
def mqOpen (n : Names) (i : Proger) : Option Names :=
  if (n.queues i).isSome then none
  else some { n with queues := Function.update n.queues i (some []) }

/-- One round of the loop that creates the semaphores and queues. -/
def create (n : Names) (i : Proger) : Option Names :=
  (semOpen (semUnlink n i) i).bind fun n => mqOpen (mqUnlink n i) i

/-- One round of the loop that adds the initial tasks: `add_task`, `sem_post`. -/
def addInitial (n : Names) (i : Proger) : Option Names :=
  (n.queues i).bind fun q => (n.sems i).bind fun v =>
    (calls.send q (-1)).map fun q =>
      { sems := Function.update n.sems i (some (v + 1)), queues := Function.update n.queues i (some q) }

/-- The processes 0, 1, 2 open the names that the initializer has made. -/
def openAll (n : Names) : Option State :=
  if ∀ i, (n.sems i).isSome ∧ (n.queues i).isSome then
    some { queues := fun i => (n.queues i).getD [], sems := fun i => (n.sems i).getD 0, pc := fun _ => .wait }
  else none

/-- The initializer, and the start of the three processes. -/
def initializer (n : Names) : Option State :=
  (([0, 1, 2].foldlM create n).bind fun n => [0, 1, 2].foldlM addInitial n).bind openAll

theorem create_eq (n : Names) (i : Proger) :
    create n i = some { sems := Function.update n.sems i (some 0)
                        queues := Function.update n.queues i (some []) } := by
  simp [create, semOpen, semUnlink, mqOpen, mqUnlink]

theorem addInitial_eq {n : Names} {i : Proger} (hs : n.sems i = some 0) (hq : n.queues i = some []) :
    addInitial n i = some { sems := Function.update n.sems i (some 1)
                            queues := Function.update n.queues i (some [-1]) } := by
  simp [addInitial, hs, hq, calls, maxMsg]

/-- **What the initializer leaves does not depend on what it finds.** -/
theorem initializer_eq (n : Names) : initializer n = some Queues.initial := by
  have hcreate : [0, 1, 2].foldlM create n = some { sems := fun _ => some 0, queues := fun _ => some [] } := by
    simp only [List.foldlM_cons, List.foldlM_nil, create_eq, Option.bind_eq_bind, Option.bind_some,
      Option.pure_def, Option.some.injEq, Names.mk.injEq]
    constructor
    · funext i; fin_cases i <;> rfl
    · funext i; fin_cases i <;> rfl
  have hadd : [0, 1, 2].foldlM addInitial { sems := fun _ => some 0, queues := fun _ => some [] } =
      some { sems := fun _ => some 1, queues := fun _ => some [-1] } := by
    simp only [List.foldlM_cons, List.foldlM_nil, Option.bind_eq_bind]
    rw [addInitial_eq rfl rfl, Option.bind_some, addInitial_eq rfl rfl, Option.bind_some,
      addInitial_eq rfl rfl, Option.bind_some, Option.pure_def, Option.some.injEq, Names.mk.injEq]
    constructor
    · funext i; fin_cases i <;> rfl
    · funext i; fin_cases i <;> rfl
  rw [initializer, hcreate, Option.bind_some, hadd, Option.bind_some]
  simp [openAll, Queues.initial]

theorem calls_fifo : calls.Fifo where
  send q t h := by
    have : q.length < maxMsg := Nat.lt_trans h (by decide)
    simp only [calls, if_pos this]
  receive _ _ := rfl

/-- **Refinement.**  Whatever semaphores and queues an earlier run has left
    behind, the initializer finishes, and then every trace of the program is a
    trace of the loop with shared memory and mutex from its initial state; no
    `mq_receive` and no `mq_send` blocks. -/
theorem refines (n : Names) : ∃ s₀, initializer n = some s₀ ∧
    ∀ tr s, (system calls s₀).Exec tr s →
      (∃ tr' t, Mutex.system.Exec tr' t ∧ events Mutex.event tr' = events (Queues.event calls) tr) ∧
        (∀ p, s.pc p = .get → ∃ r, calls.receive (s.queues p) = some r) ∧
        ∀ p task target sent, s.pc p = .add task target sent →
          ∃ q, calls.send (s.queues target) sent = some q := by
  refine ⟨_, initializer_eq n, fun tr s h => ?_⟩
  obtain ⟨hget, hadd⟩ := calls_ok calls_fifo ⟨tr, h⟩
  refine ⟨?_, fun p hp => ?_, fun p task target sent hp => ?_⟩
  · -- first to the loop with atomic calls, then to the one with the mutex
    obtain ⟨tr₁, t₁, h₁, hev₁, -⟩ := (simulation calls_fifo).exec h
    obtain ⟨tr₂, t₂, h₂, hev₂, -⟩ := Mutex.simulation_ofAtomic.exec h₁
    exact ⟨tr₂, t₂, h₂, hev₂.trans hev₁⟩
  · obtain ⟨task, q, hq⟩ := List.exists_cons_of_ne_nil (hget p hp)
    exact ⟨(task, q), by rw [hq]; rfl⟩
  · exact ⟨_, calls_fifo.send _ sent (hadd p task target sent hp)⟩

/-- Queues with five old messages each, and a run in which programmer 0 has sent its
    program to programmer 1. -/
theorem refines_sent : ∃ s₀ tr s, initializer ⟨fun _ => some 7, fun _ => some [3, -1, 4, 5, 2]⟩ = some s₀ ∧
    (system calls s₀).Exec tr s ∧ events (Queues.event calls) tr = [.taken 0 (-1), .reviewer 0 1, .added 1 0] ∧
    ∃ tr' t, Mutex.system.Exec tr' t ∧ events Mutex.event tr' = events (Queues.event calls) tr := by
  obtain ⟨s₀, hs₀, h⟩ := refines ⟨fun _ => some 7, fun _ => some [3, -1, 4, 5, 2]⟩
  obtain rfl : Queues.initial = s₀ := Option.some.inj ((initializer_eq _).symm.trans hs₀)
  obtain ⟨s, -, he, -⟩ := exec_of_any Queues.initial (step calls)
    [.semWait 0, .getTask 0, .choose 0 (.reviewer 1), .addTask 0] (fun _ => true) (by decide)
  exact ⟨_, _, s, hs₀, he, by decide, (h _ s he).1⟩

end Programmers.Queues.Posix
