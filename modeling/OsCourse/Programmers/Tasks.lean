/-
  The programmers (idz os 2/4-5): the shared memory with the three task queues.
-/
import Mathlib.Algebra.Order.Ring.Nat
import Mathlib.Data.Fintype.Basic
import Mathlib.Data.Int.Notation
import Mathlib.Tactic.FinCases
import OsCourse.Lib.ArrayQueue

namespace Programmers

/-- `NUM_PROGS` -/
abbrev numProgs : ℕ := 3

/-- `MAX_TASKS` -/
abbrev maxTasks : ℕ := 50

/-- The number of a programmer. -/
abbrev Proger := Fin numProgs

instance numProgs_neZero : NeZero numProgs := ⟨by decide⟩

/-- `shared_mem_t`: three arrays of tasks, and how many cells of each are in use. -/
structure SharedMem where
  i : Fin (maxTasks + 1)
  j : Fin (maxTasks + 1)
  k : Fin (maxTasks + 1)
  queue1 : Vector ℤ maxTasks
  queue2 : Vector ℤ maxTasks
  queue3 : Vector ℤ maxTasks

/-- The tasks queued for a programmer, oldest first. -/
def SharedMem.tasks (buffer : SharedMem) (p : Proger) : List ℤ :=
  match p with
  | 0 => (ArrayQueue.mk buffer.queue1 buffer.i).contents
  | 1 => (ArrayQueue.mk buffer.queue2 buffer.j).contents
  | 2 => (ArrayQueue.mk buffer.queue3 buffer.k).contents

/-- `add_task`: append to the programmer's queue, unless it is full. -/
def addTask (buffer : SharedMem) (progerNum : ℕ) (task : ℤ) : SharedMem :=
  match progerNum with
  | 0 =>
    let q := (ArrayQueue.mk buffer.queue1 buffer.i).push task
    { buffer with queue1 := q.cells, i := q.count }
  | 1 =>
    let q := (ArrayQueue.mk buffer.queue2 buffer.j).push task
    { buffer with queue2 := q.cells, j := q.count }
  | 2 =>
    let q := (ArrayQueue.mk buffer.queue3 buffer.k).push task
    { buffer with queue3 := q.cells, k := q.count }
  | _ => buffer

/-- `get_task`: take the oldest task of the programmer's queue, or return -1. -/
def getTask (buffer : SharedMem) (progerNum : ℕ) : ℤ × SharedMem :=
  match progerNum with
  | 0 =>
    match (ArrayQueue.mk buffer.queue1 buffer.i).pop with
    | some (task, q) => (task, { buffer with queue1 := q.cells, i := q.count })
    | none => (-1, buffer)
  | 1 =>
    match (ArrayQueue.mk buffer.queue2 buffer.j).pop with
    | some (task, q) => (task, { buffer with queue2 := q.cells, j := q.count })
    | none => (-1, buffer)
  | 2 =>
    match (ArrayQueue.mk buffer.queue3 buffer.k).pop with
    | some (task, q) => (task, { buffer with queue3 := q.cells, k := q.count })
    | none => (-1, buffer)
  | _ => (-1, buffer)

/-- **`add_task` appends to one queue**, if it has room. -/
theorem tasks_addTask (buffer : SharedMem) (p : Proger) (task : ℤ) (r : Proger) :
    (addTask buffer p task).tasks r =
      if r = p ∧ (buffer.tasks p).length < maxTasks then buffer.tasks p ++ [task]
      else buffer.tasks r := by
  fin_cases p <;> fin_cases r <;>
    simp [SharedMem.tasks, addTask, ArrayQueue.contents_push]

theorem tasks_addTask_of_lt {buffer : SharedMem} {p : Proger} {task : ℤ}
    (h : (buffer.tasks p).length < maxTasks) :
    (addTask buffer p task).tasks = Function.update buffer.tasks p (buffer.tasks p ++ [task]) := by
  funext r
  rw [tasks_addTask, Function.update_apply]
  simp [h]

/-- **`get_task` takes the oldest task of one queue.** -/
theorem tasks_getTask {buffer : SharedMem} {p : Proger} {task : ℤ} {rest : List ℤ}
    (h : buffer.tasks p = task :: rest) :
    (getTask buffer p).1 = task ∧
      (getTask buffer p).2.tasks = Function.update buffer.tasks p rest := by
  have key : ∀ q : ArrayQueue ℤ maxTasks, q.contents = task :: rest →
      ∃ q', q.pop = some (task, q') ∧ q'.contents = rest := by
    intro q hq
    have := q.pop_eq
    rw [hq] at this
    simp only [List.head?_cons, Option.map_some, List.tail_cons, Option.map_eq_some_iff,
      Prod.map, id, Prod.mk.injEq] at this
    obtain ⟨⟨x, q'⟩, h1, rfl, h2⟩ := this
    exact ⟨q', h1, h2⟩
  match p with
  | 0 | 1 | 2 =>
    obtain ⟨q', h1, h2⟩ := key _ h
    refine ⟨by simp [getTask, h1], ?_⟩
    funext r
    match r with
    | 0 | 1 | 2 => simp [getTask, h1, SharedMem.tasks, h2, numProgs]

/-- On an empty queue `get_task` returns -1 and takes nothing. -/
theorem getTask_nil {buffer : SharedMem} {p : Proger} (h : buffer.tasks p = []) :
    getTask buffer p = (-1, buffer) := by
  have key : ∀ q : ArrayQueue ℤ maxTasks, q.contents = [] → q.pop = none := by
    intro q hq
    have := q.pop_eq
    rw [hq] at this
    simpa using this
  match p with
  | 0 | 1 | 2 => simp [getTask, key _ h]

end Programmers
