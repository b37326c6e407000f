/-
  The programmers (idz os 2/4-5): every programmer has exactly one program in
  the system, and the semaphores count the tasks of the queues.
-/
import OsCourse.Lib.Counting
import OsCourse.Programmers.Run
import Mathlib.Tactic.FinCases
import Mathlib.Tactic.IntervalCases

namespace Programmers

open Transition Counting

/-! ## Tokens -/

/-- The task `t`, queued for `r` or in the hands of `r`, is the program of `q`:
    `-1` is the program that `q` is to write, `q` the one that another
    programmer is to review, and `q + 3` the one to review again. -/
def isToken (q r : Proger) (t : ℤ) : Bool :=
  (t == -1 && r == q) || (r != q && (t == q || t == q + numProgs))

/-- The task in a programmer's hands: taken with `get_task`, and nothing added
    for it yet. -/
def Pc.hand : Pc → List ℤ
  | .hold task | .add task _ _ => [task]
  | _ => []

/-- The tasks that are queued for `r` or in the hands of `r`. -/
def State.tasks (s : State) (r : Proger) : List ℤ := s.buffer.tasks r ++ (s.pc r).hand

/-- The number of tasks with the property `P` in the whole system. -/
def weigh (s : State) (P : Proger → ℤ → Bool) : ℕ := ∑ r, (s.tasks r).countP (P r)

/-- The number of programs of `q` in the whole system. -/
def tokens (s : State) (q : Proger) : ℕ := weigh s (isToken q)

/-- The tasks already added to the queue of `p` that are not posted yet. -/
def unposted (s : State) (p : Proger) : ℕ := num fun r => s.pc r = .post p

/-- The `sem_wait(sems[p])` already passed whose `get_task` has not run yet. -/
def ungot (s : State) (p : Proger) : ℕ := if s.pc p = .get then 1 else 0

/-- The invariant of the three loops. -/
structure Inv (s : State) : Prop where
  token : ∀ q, tokens s q = 1
  /-- every task is somebody's program -/
  legal : ∀ r, ∀ t ∈ s.tasks r, ∃ q, isToken q r t
  /-- there are three tasks in all -/
  total : weigh s (fun _ _ => true) = numProgs
  /-- the semaphores count the tasks -/
  sems : ∀ p, (s.buffer.tasks p).length = s.sems p + unposted s p + ungot s p
  /-- what is about to be added is the program in hand -/
  sent : ∀ p task target sent, s.pc p = .add task target sent →
    ∀ q, isToken q p task = isToken q target sent

theorem isToken_iff {q r : Proger} {t : ℤ} :
    isToken q r t ↔
      (t = -1 ∧ r.val = q.val) ∨ (r.val ≠ q.val ∧ (t = q.val ∨ t = q.val + 3)) := by
  simp [isToken, Fin.ext_iff]

theorem Proger.lt (p : Proger) : p.val < 3 := p.isLt

/-- A programmer never works on the own program as a reviewer. -/
theorem isToken_ne {q r : Proger} {t : ℤ} (h : isToken q r t) :
    t ≠ (r.val : ℤ) ∧ t ≠ r.val + 3 := by
  rw [isToken_iff] at h
  have := q.lt
  have := r.lt
  omega

/-- **The branches of `run` pass the program on**: what is sent is a program of
    the same programmer. -/
theorem isToken_branch {p : Proger} {task : ℤ} {c : Choice} {m : Option (Proger × ℤ)}
    (hl : ∃ q, isToken q p task) (h : branch p task c = some m) :
    ∃ target sent, m = some (target, sent) ∧ ∀ q, isToken q p task = isToken q target sent := by
  obtain ⟨q₀, hq₀⟩ := hl
  obtain ⟨h1, h2⟩ := isToken_ne hq₀
  have hn : numProgs = 3 := rfl
  have hp := p.lt
  cases c with
  | reviewer r =>
    simp only [branch, Option.ite_none_right_eq_some, Option.some.injEq] at h
    obtain ⟨⟨rfl, hr⟩, rfl⟩ := h
    refine ⟨r, p, rfl, fun q => Bool.eq_iff_iff.2 ?_⟩
    rw [isToken_iff, isToken_iff]
    have := Fin.val_ne_of_ne hr
    have := q.lt
    omega
  | verdict ok =>
    simp only [branch] at h
    -- a review, or a re-review; the program goes back to its author, or to the same reviewer
    split_ifs at h
    all_goals
      obtain rfl := Option.some.inj h
      refine ⟨_, _, rfl, fun q => Bool.eq_iff_iff.2 ?_⟩
      have := q.lt
      constructor
      all_goals intro hq; simp only [isToken_iff, true_and] at hq ⊢; omega
  | skip =>
    have := q₀.lt
    rw [isToken_iff] at hq₀
    simp only [branch] at h
    split_ifs at h
    omega

/-! ## Moving tasks -/

theorem weigh_perm {s s' : State} (h : ∀ r, (s'.tasks r).Perm (s.tasks r))
    (P : Proger → ℤ → Bool) : weigh s' P = weigh s P :=
  Finset.sum_congr rfl fun r _ => (h r).countP_eq _

/-- `add_task` replaces the task in the hands of `p` by one in the queue of
    `target`. -/
theorem weigh_addTask {s : State} {p target : Proger} {task sent : ℤ}
    (hpc : s.pc p = .add task target sent) (hlt : (s.buffer.tasks target).length < maxTasks)
    (P : Proger → ℤ → Bool) :
    weigh { s with buffer := addTask s.buffer target sent
                   pc := Function.update s.pc p (.post target) } P + (if P p task then 1 else 0) =
      weigh s P + (if P target sent then 1 else 0) := by
  have hqueue : ∀ r, (Function.update s.buffer.tasks target (s.buffer.tasks target ++ [sent]) r).countP
      (P r) = (s.buffer.tasks r).countP (P r) + if r = target then (if P target sent then 1 else 0) else 0 := by
    intro r
    by_cases hr : r = target
    · subst hr; simp [List.countP_singleton]
    · simp [hr]
  have hhand : ∀ r, (Function.update s.pc p (.post target) r).hand.countP (P r) +
      (if r = p then (if P p task then 1 else 0) else 0) = (s.pc r).hand.countP (P r) := by
    intro r
    by_cases hr : r = p
    · subst hr; simp [hpc, Pc.hand, List.countP_singleton]
    · simp [hr]
  refine sum_move p target fun r => ?_
  simp only [State.tasks, tasks_addTask_of_lt hlt, List.countP_append, hqueue, ← hhand r]
  omega

/-- A queue holds no more than the three tasks of the system. -/
theorem Inv.length_lt {s : State} (h : Inv s) (target : Proger) :
    (s.buffer.tasks target).length < maxTasks := by
  have h3 : ∑ r, (s.tasks r).length = numProgs := by
    have := h.total
    simpa only [weigh, List.countP_true] using this
  have hle := Finset.single_le_sum (f := fun r => (s.tasks r).length) (fun _ _ => Nat.zero_le _)
    (Finset.mem_univ target)
  have : (s.buffer.tasks target).length ≤ (s.tasks target).length := by simp [State.tasks]
  simp only [numProgs, maxTasks] at *
  omega

/-- While a task is in hand, a queue holds no more than the two others. -/
theorem Inv.length_add {s : State} (h : Inv s) {p target : Proger} {task sent : ℤ}
    (hpc : s.pc p = .add task target sent) : (s.buffer.tasks target).length < numProgs := by
  have h3 : ∑ r, ((s.buffer.tasks r).length + (s.pc r).hand.length) = numProgs := by
    have := h.total
    simpa only [weigh, List.countP_true, State.tasks, List.length_append] using this
  rw [Finset.sum_add_distrib] at h3
  have h1 := Finset.single_le_sum (f := fun r => (s.buffer.tasks r).length)
    (fun _ _ => Nat.zero_le _) (Finset.mem_univ target)
  have h2 := Finset.single_le_sum (f := fun r => (s.pc r).hand.length)
    (fun _ _ => Nat.zero_le _) (Finset.mem_univ p)
  have h4 : (s.pc p).hand.length = 1 := by rw [hpc]; rfl
  omega

/-- **No queue is empty when it is read.** -/
theorem Inv.get_ne_nil {s : State} (h : Inv s) {p : Proger} (hpc : s.pc p = .get) :
    s.buffer.tasks p ≠ [] := by
  have := h.sems p
  rw [ungot, if_pos hpc] at this
  exact List.ne_nil_of_length_pos (by omega)

/-! ## The invariant -/

theorem inv_initial : Inv initial where
  token := by
    intro q
    simp only [tokens, weigh, State.tasks, initial_tasks]
    revert q; decide
  legal := by
    intro r t ht
    simp only [State.tasks, initial_tasks] at ht
    obtain rfl : t = -1 := by simpa [initial, Pc.hand] using ht
    exact ⟨r, by simp [isToken]⟩
  total := by
    simp only [weigh, State.tasks, initial_tasks]
    decide
  sems := by
    intro p
    have hu : unposted initial p = 0 := by simp [unposted, num, initial]
    have hg : ungot initial p = 0 := by simp [ungot, initial]
    rw [initial_tasks, initial_sems, hu, hg]; rfl
  sent := by
    intro p task target sent hpc
    simp [initial] at hpc

/-- A step that moves no task between programmers, and does not end at
    `add_task`, keeps what is said of the tasks. -/
theorem Inv.of_perm {s s' : State} (h : Inv s) (hperm : ∀ r, (s'.tasks r).Perm (s.tasks r))
    (hsems : ∀ p, (s'.buffer.tasks p).length = s'.sems p + unposted s' p + ungot s' p)
    (hsent : ∀ p task target sent, s'.pc p = .add task target sent →
      ∀ q, isToken q p task = isToken q target sent) : Inv s' where
  token q := (weigh_perm hperm _).trans (h.token q)
  legal r t ht := h.legal r t ((hperm r).mem_iff.1 ht)
  total := (weigh_perm hperm _).trans h.total
  sems := hsems
  sent := hsent

/-- The accounting of the semaphores, when `p` moves to `pc`: what the queue of
    `q` gains is what its semaphore, its unposted tasks and its pending
    `get_task` gain. -/
theorem Inv.sems_of {s s' : State} (h : Inv s) {p : Proger} {pc : Pc}
    (hpc : s'.pc = Function.update s.pc p pc)
    (hbal : ∀ q, (s'.buffer.tasks q).length + s.sems q + (if s.pc p = .post q then 1 else 0) +
        (if q = p ∧ s.pc p = .get then 1 else 0) =
      (s.buffer.tasks q).length + s'.sems q + (if pc = .post q then 1 else 0) +
        (if q = p ∧ pc = .get then 1 else 0)) (q : Proger) :
    (s'.buffer.tasks q).length = s'.sems q + unposted s' q + ungot s' q := by
  have h1 := h.sems q
  have h2 := num_update (· = .post q) s.pc p pc
  have h3 := hbal q
  simp only [unposted, ungot, hpc] at *
  by_cases hq : q = p
  · subst hq; simp only [true_and, Function.update_self] at *; omega
  · simp only [hq, false_and, if_false, Function.update_of_ne, ne_eq, not_false_eq_true] at *; omega

/-- The other programmers' pending calls of `add_task` are untouched. -/
theorem Inv.sent_of {s s' : State} (h : Inv s) {p : Proger} {pc : Pc}
    (hpc : s'.pc = Function.update s.pc p pc)
    (hnew : ∀ task target sent, pc = .add task target sent →
      ∀ q, isToken q p task = isToken q target sent) :
    ∀ r task target sent, s'.pc r = .add task target sent →
      ∀ q, isToken q r task = isToken q target sent := by
  intro r task target sent hr
  rw [hpc, Function.update_apply] at hr
  split_ifs at hr with hrp
  · subst hrp; exact hnew _ _ _ hr
  · exact h.sent _ _ _ _ hr

theorem inv_step {s s' : State} {a : Label} (h : Inv s) (hs : step s a = some s') : Inv s' := by
  obtain ⟨p, -, hpc, hpos, rfl⟩ | ⟨p, -, hpc, rfl⟩ | ⟨p, c, task, m, -, hpc, hb, rfl⟩ |
    ⟨p, task, target, sent, -, hpc, rfl⟩ | ⟨p, target, -, hpc, rfl⟩ := step_cases hs
  · -- `sem_wait`
    refine h.of_perm (?_) (h.sems_of rfl ?_) (h.sent_of rfl (by simp))
    · intro r
      by_cases hr : r = p
      · subst hr; simp [State.tasks, hpc, Pc.hand]
      · simp [State.tasks, hr]
    · intro q
      by_cases hq : q = p
      · subst hq; simp [hpc]; omega
      · simp [hpc, hq]
  · -- `get_task`: the queue is not empty, and its first task passes to the hands of `p`
    obtain ⟨task, rest, ht⟩ := List.exists_cons_of_ne_nil (h.get_ne_nil hpc)
    obtain ⟨h1, h2⟩ := tasks_getTask ht
    refine h.of_perm (?_) (h.sems_of rfl ?_) (h.sent_of rfl (by simp))
    · intro r
      by_cases hr : r = p
      · subst hr; simp [State.tasks, h1, h2, ht, hpc, Pc.hand]
      · simp [State.tasks, h2, hr]
    · intro q
      by_cases hq : q = p
      · subst hq; simp [h2, ht, hpc]; omega
      · simp [h2, hpc, hq]
  · -- the branches on `task`
    have htask : task ∈ s.tasks p := by simp [State.tasks, hpc, Pc.hand]
    obtain ⟨target, sent, rfl, hsame⟩ := isToken_branch (h.legal p task htask) hb
    rw [afterBranch]
    refine h.of_perm (?_) (h.sems_of rfl fun q => by simp [hpc]) (h.sent_of rfl ?_)
    · intro r
      by_cases hr : r = p
      · subst hr; simp [State.tasks, hpc, Pc.hand]
      · simp [State.tasks, hr]
    · rintro _ _ _ ⟨⟩; exact hsame
  · -- `add_task`: the program passes from the hands of `p` to the queue of `target`
    have hlt := h.length_lt target
    have hsame := h.sent p task target sent hpc
    refine ⟨?_, ?_, ?_, h.sems_of rfl ?_, h.sent_of rfl (by simp)⟩
    · intro q
      have := weigh_addTask hpc hlt (isToken q)
      rw [hsame q] at this
      exact (Nat.add_right_cancel this).trans (h.token q)
    · intro r t ht
      have ht' : t ∈ s.tasks r ∨ (r = target ∧ t = sent) := by
        simp only [State.tasks, tasks_addTask_of_lt hlt, List.mem_append] at ht ⊢
        rcases ht with ht | ht
        · by_cases hr : r = target
          · subst hr
            rw [Function.update_self, List.mem_append, List.mem_singleton] at ht
            exact ht.imp .inl fun h => ⟨rfl, h⟩
          · rw [Function.update_of_ne hr] at ht; exact .inl (.inl ht)
        · by_cases hr : r = p
          · subst hr; rw [Function.update_self] at ht; cases ht
          · rw [Function.update_of_ne hr] at ht; exact .inl (.inr ht)
      rcases ht' with ht' | ⟨rfl, rfl⟩
      · exact h.legal r t ht'
      · obtain ⟨q, hq⟩ := h.legal p task (by simp [State.tasks, hpc, Pc.hand])
        exact ⟨q, hsame q ▸ hq⟩
    · exact (Nat.add_right_cancel (weigh_addTask hpc hlt fun _ _ => true)).trans h.total
    · intro q
      by_cases hq : q = target
      · subst hq; simp [tasks_addTask_of_lt hlt, hpc]; omega
      · simp [tasks_addTask_of_lt hlt, hpc, hq, Ne.symm hq]
  · -- `sem_post`
    refine h.of_perm (?_) (h.sems_of rfl ?_) (h.sent_of rfl (by simp))
    · intro r
      by_cases hr : r = p
      · subst hr; simp [State.tasks, hpc, Pc.hand]
      · simp [State.tasks, hr]
    · intro q
      by_cases hq : q = target
      · subst hq; simp [hpc]; omega
      · simp [hpc, hq, Ne.symm hq]

theorem inv_reachable {s : State} (h : system.Reachable s) : Inv s :=
  System.Inductive.reachable (S := system) (J := Inv)
    ⟨fun _ hs => hs ▸ inv_initial, fun _ _ _ hi hs => inv_step hi hs⟩ h

/-- **Conservation of the programs.**  In every reachable state each programmer
    has exactly one program in the system, every task is somebody's program, no
    programmer has an own program to review, and the queue to which a task is
    about to be added has room for it. -/
theorem tokens_conserved {s : State} (h : system.Reachable s) :
    (∀ q, tokens s q = 1) ∧ (∀ r, ∀ t ∈ s.tasks r, ∃ q, isToken q r t) ∧
      (∀ r : Proger, (r : ℤ) ∉ s.tasks r ∧ (r : ℤ) + numProgs ∉ s.tasks r) ∧
      ∀ p task target sent, s.pc p = .add task target sent →
        (s.buffer.tasks target).length < maxTasks := by
  have hi := inv_reachable h
  refine ⟨hi.token, hi.legal, fun r => ⟨?_, ?_⟩,
    fun _ _ target _ _ => hi.length_lt target⟩
  · intro hr
    obtain ⟨q, hq⟩ := hi.legal r _ hr; exact (isToken_ne hq).1 rfl
  · intro hr
    obtain ⟨q, hq⟩ := hi.legal r _ hr; exact (isToken_ne hq).2 rfl

theorem tokens_conserved_sent : ∃ s, s.buffer.tasks 1 = [-1, 0] ∧
    (∀ q, tokens s q = 1) ∧ (∀ r, ∀ t ∈ s.tasks r, ∃ q, isToken q r t) ∧
      (∀ r : Proger, (r : ℤ) ∉ s.tasks r ∧ (r : ℤ) + numProgs ∉ s.tasks r) ∧
      ∀ p task target sent, s.pc p = .add task target sent →
        (s.buffer.tasks target).length < maxTasks :=
  ⟨_, by decide, tokens_conserved (@System.reachable_runFn _ _ initial _ step
    [.semWait 0, .getTask 0, .choose 0 (.reviewer 1), .addTask 0] rfl)⟩

end Programmers
