/-
  The task queues (idz os 2) under any sequence of `add_task` and `get_task`: three FIFO
  queues that do not touch each other.
-/
import OsCourse.Lib.Fifo
import OsCourse.Programmers.Run

namespace Programmers

variable {buffer : SharedMem} {p r : Proger}

/-- The array and the index of a programmer. -/
def SharedMem.queue (buffer : SharedMem) (p : Proger) : ArrayQueue ℤ maxTasks :=
  match p with
  | 0 => { cells := buffer.queue1, count := buffer.i }
  | 1 => { cells := buffer.queue2, count := buffer.j }
  | 2 => { cells := buffer.queue3, count := buffer.k }

theorem contents_queue (buffer : SharedMem) (p : Proger) : (buffer.queue p).contents = buffer.tasks p :=
  match p with
  | 0 | 1 | 2 => rfl

theorem length_tasks_le (buffer : SharedMem) (p : Proger) : (buffer.tasks p).length ≤ maxTasks := by
  rw [← contents_queue, ArrayQueue.length_contents]
  exact Nat.le_of_lt_succ (buffer.queue p).count.isLt

theorem push_of_full {q : ArrayQueue ℤ maxTasks} (h : q.contents.length = maxTasks) (task : ℤ) : q.push task = q := by
  rw [ArrayQueue.length_contents] at h
  exact dif_neg (by omega)

/-! ## Single calls -/

/-- Another array and another index for a programmer. -/
def SharedMem.setQueue (buffer : SharedMem) (p : Proger) (q : ArrayQueue ℤ maxTasks) : SharedMem :=
  match p with
  | 0 => { buffer with queue1 := q.cells, i := q.count }
  | 1 => { buffer with queue2 := q.cells, j := q.count }
  | 2 => { buffer with queue3 := q.cells, k := q.count }

theorem setQueue_queue (buffer : SharedMem) (p : Proger) : buffer.setQueue p (buffer.queue p) = buffer :=
  match p with
  | 0 | 1 | 2 => rfl

theorem queue_setQueue_of_ne (h : r ≠ p) (q : ArrayQueue ℤ maxTasks) :
    (buffer.setQueue p q).queue r = buffer.queue r := by
  fin_cases p <;> fin_cases r <;> first | rfl | exact absurd rfl h

theorem addTask_eq_setQueue (buffer : SharedMem) (p : Proger) (task : ℤ) :
    addTask buffer p task = buffer.setQueue p ((buffer.queue p).push task) :=
  match p with
  | 0 | 1 | 2 => rfl

theorem getTask_eq_setQueue (buffer : SharedMem) (p : Proger) : ∃ q, (getTask buffer p).2 = buffer.setQueue p q := by
  cases hpop : (buffer.queue p).pop with
  | none =>
    refine ⟨buffer.queue p, ?_⟩
    fin_cases p <;> simp [getTask, SharedMem.queue, SharedMem.setQueue] at hpop ⊢ <;> rw [hpop]
  | some x =>
    refine ⟨x.2, ?_⟩
    fin_cases p <;> simp [getTask, SharedMem.queue, SharedMem.setQueue] at hpop ⊢ <;> rw [hpop]

/-- `add_task` on a full queue changes nothing. -/
theorem addTask_of_full (h : (buffer.tasks p).length = maxTasks) (task : ℤ) : addTask buffer p task = buffer := by
  rw [addTask_eq_setQueue, push_of_full (by rwa [contents_queue]), setQueue_queue]

theorem queue_addTask_of_ne (h : r ≠ p) (task : ℤ) : (addTask buffer p task).queue r = buffer.queue r := by
  rw [addTask_eq_setQueue, queue_setQueue_of_ne h]

theorem queue_getTask_of_ne (h : r ≠ p) : (getTask buffer p).2.queue r = buffer.queue r := by
  obtain ⟨q, hq⟩ := getTask_eq_setQueue buffer p
  rw [hq, queue_setQueue_of_ne h]

theorem tasks_addTask_eq_update (buffer : SharedMem) (p : Proger) (task : ℤ) : (addTask buffer p task).tasks =
    Function.update buffer.tasks p (Fifo.push maxTasks (buffer.tasks p) task) := by
  rw [Fifo.push]
  split_ifs with hlt
  · exact tasks_addTask_of_lt hlt
  · have := length_tasks_le buffer p
    rw [addTask_of_full (by omega), Function.update_eq_self]

theorem getTask_eq (buffer : SharedMem) (p : Proger) : (getTask buffer p).1 = (buffer.tasks p).head?.getD (-1) ∧
    (getTask buffer p).2.tasks = Function.update buffer.tasks p (buffer.tasks p).tail := by
  cases h : buffer.tasks p with
  | nil => simp [getTask_nil h, h]
  | cons task rest => exact tasks_getTask h

/-- What the calls on the queue of a programmer do. -/
structure IsFifo (buffer : SharedMem) (p : Proger) : Prop where
  add : (buffer.tasks p).length < maxTasks → ∀ task, (addTask buffer p task).tasks p = buffer.tasks p ++ [task]
  add_full : (buffer.tasks p).length = maxTasks → ∀ task, addTask buffer p task = buffer
  get : ∀ task rest, buffer.tasks p = task :: rest →
    (getTask buffer p).1 = task ∧ (getTask buffer p).2.tasks p = rest
  get_empty : buffer.tasks p = [] → getTask buffer p = (-1, buffer)
  /-- The array and the index of another programmer are not touched. -/
  frame : ∀ r, r ≠ p → (∀ task, (addTask buffer p task).queue r = buffer.queue r) ∧
    (getTask buffer p).2.queue r = buffer.queue r

theorem isFifo (buffer : SharedMem) (p : Proger) : IsFifo buffer p where
  add h task := by rw [tasks_addTask_of_lt h, Function.update_self]
  add_full := addTask_of_full
  get task rest h := by
    obtain ⟨hfst, hsnd⟩ := tasks_getTask h
    exact ⟨hfst, by rw [hsnd, Function.update_self]⟩
  get_empty := getTask_nil
  frame r h := ⟨queue_addTask_of_ne h, queue_getTask_of_ne h⟩

/-! ## Sequences of calls -/

/-- The three queues with `add_task` and `get_task`. -/
def taskQueues : Fifo.Family SharedMem Proger ℤ ℤ maxTasks where
  contents := SharedMem.tasks
  add buffer p := addTask buffer p
  get buffer p := getTask buffer p
  encode task := task.getD (-1)
  contents_add := tasks_addTask_eq_update
  get_fst buffer p := (getTask_eq buffer p).1
  contents_get buffer p := (getTask_eq buffer p).2

theorem tasks_clear (p : Proger) : SharedMem.clear.tasks p = [] :=
  match p with
  | 0 | 1 | 2 => rfl

open Fifo.Family (only)

/-- **Three independent FIFO queues**: after any sequence of calls, each queue has the
    contents and has given the answers of a queue of capacity `MAX_TASKS` that has seen the
    calls on it alone, and the next call is one on such a queue. -/
theorem run_clear (calls : List (Proger × Fifo.Call ℤ)) (p : Proger) :
    let after := taskQueues.run SharedMem.clear calls
    let alone := Fifo.run maxTasks [] (only p calls)
    after.2.tasks p = alone.2 ∧ only p after.1 = alone.1.map (·.getD (-1)) ∧
      alone.1.reduceOption ++ after.2.tasks p = Fifo.accepted maxTasks [] (only p calls) ∧
      (after.2.tasks p).length ≤ maxTasks ∧ IsFifo after.2 p := by
  have hrun := taskQueues.run_only SharedMem.clear calls p
  have hempty : taskQueues.contents SharedMem.clear p = [] := tasks_clear p
  rw [hempty] at hrun
  obtain ⟨htasks, hanswers⟩ := hrun
  refine ⟨htasks, hanswers, ?_, ?_, isFifo _ p⟩
  · exact (congrArg _ htasks).trans Fifo.returned_append_run
  · exact (congrArg List.length htasks).trans_le (Fifo.length_run_le (Nat.zero_le maxTasks))

/-- Two tasks for one programmer and one for another. -/
example : (taskQueues.run SharedMem.clear [(0, .add 4), (1, .add (-1)), (0, .add 2), (0, .get), (2, .get)]).1 =
    [(0, 4), (2, -1)] := by rfl

end Programmers
