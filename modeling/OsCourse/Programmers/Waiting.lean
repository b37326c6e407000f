/-
  The programmers (idz os 2/4-5): how long a program waits in a queue.  The queues are
  first in, first out, and there are three programs in all.
-/
import OsCourse.Lib.Traces
import OsCourse.Programmers.Events

namespace Programmers

open Transition Counting

variable {s s' : State} {p q r : Proger}

/-- The program of `q` is in the queue of `r`. -/
def Queued (q r : Proger) (s : State) : Prop := ∃ t ∈ s.buffer.tasks r, isToken q r t = true

/-- How many tasks are before it. -/
def ahead (q r : Proger) (s : State) : ℕ := (s.buffer.tasks r).findIdx (isToken q r)

/-- In this step `r` takes the program of `q`. -/
def Takes (q r : Proger) (s : State) (a : Label) : Prop :=
  a = .getTask r ∧ isToken q r (getTask s.buffer r).1 = true

/-! ## The queue of `r` -/

theorem Queued.ahead_lt (h : Queued q r s) : ahead q r s < (s.buffer.tasks r).length := by
  obtain ⟨t, ht, htoken⟩ := h
  exact List.findIdx_lt_length_of_exists ⟨t, ht, htoken⟩

/-- Where the queue of `r` is the same, nothing has changed for the program. -/
theorem Queued.of_eq (h : Queued q r s) {t : State} (heq : t.buffer.tasks r = s.buffer.tasks r) :
    Queued q r t ∧ ahead q r t = ahead q r s := by
  unfold Queued ahead
  rw [heq]
  exact ⟨h, rfl⟩

/-- A task that is added comes behind. -/
theorem Queued.of_append (h : Queued q r s) {task : ℤ} (heq : s'.buffer.tasks r = s.buffer.tasks r ++ [task]) :
    Queued q r s' ∧ ahead q r s' = ahead q r s := by
  have hlt := h.ahead_lt
  obtain ⟨t, ht, htoken⟩ := h
  unfold Queued ahead at *
  rw [heq]
  refine ⟨⟨t, List.mem_append_left _ ht, htoken⟩, ?_⟩
  rw [List.findIdx_append, if_pos hlt]

/-- A task that is taken, and is not the program, leaves one less before it. -/
theorem Queued.of_tail (h : Queued q r s) {task : ℤ} {rest : List ℤ} (hcons : s.buffer.tasks r = task :: rest)
    (htask : isToken q r task = false) {t : State} (heq : t.buffer.tasks r = rest) :
    Queued q r t ∧ ahead q r t + 1 = ahead q r s := by
  obtain ⟨sent, hsent, htoken⟩ := h
  unfold Queued ahead
  rw [hcons] at hsent ⊢
  rw [heq]
  refine ⟨⟨sent, (List.mem_cons.1 hsent).resolve_left ?_, htoken⟩, ?_⟩
  · rintro rfl
    rw [htask] at htoken
    cases htoken
  · rw [List.findIdx_cons, htask]
    rfl

/-- A task that is added somewhere does not come before the program. -/
theorem Queued.of_addTask (h : Queued q r s) {target : Proger} {task : ℤ}
    (hlt : (s.buffer.tasks target).length < maxTasks) {t : State} (heq : t.buffer = addTask s.buffer target task) :
    Queued q r t ∧ ahead q r t = ahead q r s := by
  have hadd : t.buffer.tasks = Function.update s.buffer.tasks target (s.buffer.tasks target ++ [task]) := by
    rw [heq, tasks_addTask_of_lt hlt]
  by_cases hr : r = target
  · subst hr
    exact h.of_append (by rw [hadd, Function.update_self])
  · exact h.of_eq (by rw [hadd, Function.update_of_ne hr])

/-! ## A step -/

/-- **A step of the waiting time.**  Every other task that `r` takes is one less before the
    program. -/
theorem waiting_step (hi : Inv s) (hq : Queued q r s) {a : Label} (hs : step s a = some s')
    (hne : ¬ Takes q r s a) :
    Queued q r s' ∧ ahead q r s' + (decide (a = .getTask r)).toNat ≤ ahead q r s := by
  have hother : ∀ {b : Label} {t : State}, b ≠ .getTask r → Queued q r t ∧ ahead q r t = ahead q r s →
      Queued q r t ∧ ahead q r t + (decide (b = .getTask r)).toNat ≤ ahead q r s := by
    intro b t hb h
    refine ⟨h.1, ?_⟩
    rw [decide_eq_false hb]
    exact h.2.le
  obtain ⟨p, rfl, -, -, rfl⟩ | ⟨p, rfl, hpc, rfl⟩ | ⟨p, c, task, m, rfl, -, -, rfl⟩ |
    ⟨p, task, target, sent, rfl, -, rfl⟩ | ⟨p, target, rfl, -, rfl⟩ := step_cases hs
  · exact hother (by simp) (hq.of_eq rfl)
  · obtain ⟨task, rest, ht⟩ := List.exists_cons_of_ne_nil (hi.get_ne_nil hpc)
    obtain ⟨htask, htasks⟩ := tasks_getTask ht
    by_cases hpr : p = r
    · subst hpr
      have hlast : isToken q p task = false := by
        rw [← htask]
        exact Bool.eq_false_iff.2 fun htoken => hne ⟨rfl, htoken⟩
      obtain ⟨hq', ha⟩ := hq.of_tail ht hlast (t := { s with
        buffer := (getTask s.buffer p).2
        pc := Function.update s.pc p (.hold (getTask s.buffer p).1) }) (by rw [htasks, Function.update_self])
      exact ⟨hq', by simpa using ha.le⟩
    · exact hother (by simpa using hpr) (hq.of_eq (by rw [htasks, Function.update_of_ne (Ne.symm hpr)]))
  · exact hother (by simp) (hq.of_eq rfl)
  · exact hother (by simp) (hq.of_addTask (hi.length_lt target) rfl)
  · exact hother (by simp) (hq.of_eq rfl)

/-- The tasks of `r` are three at most. -/
theorem Inv.length_tasks_le (hi : Inv s) (r : Proger) : (s.tasks r).length ≤ 3 := by
  have htotal : ∑ r, (s.tasks r).length = numProgs := by
    have := hi.total
    simpa only [weigh, List.countP_true] using this
  exact (Finset.single_le_sum (f := fun r => (s.tasks r).length) (fun _ _ => Nat.zero_le _)
    (Finset.mem_univ r)).trans htotal.le

/-- The other two tasks are before the program, or one of them is in the hands of `r`. -/
theorem Queued.ahead_add_hand_le (hi : Inv s) (hq : Queued q r s) :
    ahead q r s + (s.pc r).hand.length ≤ 2 := by
  have hlt := hq.ahead_lt
  have hle := hi.length_tasks_le r
  rw [State.tasks, List.length_append] at hle
  omega

namespace Mutex

variable {s s' : State} {a : Label}

/-- In this step `r` takes the program of `q`. -/
def Takes (q r : Proger) (s : State) (a : Label) : Prop :=
  a = .getTask r ∧ isToken q r (Programmers.getTask s.buffer r).1 = true

instance (q r : Proger) (s : State) (a : Label) : Decidable (Takes q r s a) := inferInstanceAs (Decidable (_ ∧ _))

/-- The runs in which `r` does not take the program of `q`. -/
def waiting (q r : Proger) : System State Label := system.restrict fun s a => ¬ Takes q r s a

/-- The steps that a programmer takes until it is before `get_task`. -/
def Pc.toGet : Pc → ℕ
  | .get => 0
  | .getLock => 1
  | .wait => 2
  | .post _ => 3
  | .addUnlock _ => 4
  | .add _ _ _ => 5
  | .addLock _ _ _ => 6
  | .hold _ => 7
  | .getUnlock _ => 8

/-- The steps that `r` takes until it is about to take the program of `q`. -/
def toTake (q r : Proger) (s : State) : ℕ := 9 * ahead q r s.abs + (s.pc r).toGet

/-! ## The steps of `r` -/

theorem abs_eq_getTask : a.abs = some (.getTask r) ↔ a = .getTask r := by
  cases a <;> simp [Label.abs]

theorem toGet_lock {pc pc' : Pc} (h : pc.lock = some pc') : pc'.toGet + 1 = pc.toGet := by
  cases pc <;> cases h <;> rfl

theorem toGet_unlock {pc pc' : Pc} (h : pc.unlock = some pc') : pc'.toGet + 1 = pc.toGet := by
  cases pc <;> cases h <;> rfl

theorem toGet_afterBranch (task : ℤ) (m : Option (Proger × ℤ)) : (afterBranch task m).toGet + 1 ≤ 7 := by
  cases m <;> simp [afterBranch, Pc.toGet]

/-- A step moves its own programmer only, and brings it nearer to the next `get_task`. -/
theorem toGet_step (h : step s a = some s') :
    (a.proger ≠ r → s'.pc r = s.pc r) ∧
      (s'.pc a.proger).toGet + 1 ≤ (s.pc a.proger).toGet + (decide (a = .getTask a.proger)).toNat * 9 := by
  have hmove : ∀ {pc : Pc}, s'.pc = Function.update s.pc a.proger pc →
      pc.toGet + 1 ≤ (s.pc a.proger).toGet + (decide (a = .getTask a.proger)).toNat * 9 →
      (a.proger ≠ r → s'.pc r = s.pc r) ∧
        (s'.pc a.proger).toGet + 1 ≤ (s.pc a.proger).toGet + (decide (a = .getTask a.proger)).toNat * 9 := by
    intro pc hpc hle
    rw [hpc, Function.update_self]
    exact ⟨fun hr => Function.update_of_ne (Ne.symm hr) _ _, hle⟩
  cases a with
  | semWait p =>
    simp only [step] at h
    split at h
    · next hpc =>
      split at h
      · cases h
        exact hmove rfl (by simp [Label.proger, hpc, Pc.toGet])
      · cases h
    · cases h
  | lock p =>
    simp only [step] at h
    split at h
    · obtain ⟨pc, hpc, rfl⟩ := Option.map_eq_some_iff.1 h
      exact hmove rfl ((toGet_lock hpc).le.trans (Nat.le_add_right _ _))
    · cases h
  | unlock p =>
    simp only [step] at h
    obtain ⟨pc, hpc, rfl⟩ := Option.map_eq_some_iff.1 h
    exact hmove rfl ((toGet_unlock hpc).le.trans (Nat.le_add_right _ _))
  | choose p c =>
    simp only [step] at h
    split at h
    · next task hpc =>
      obtain ⟨m, -, rfl⟩ := Option.map_eq_some_iff.1 h
      refine hmove rfl ((toGet_afterBranch task m).trans ?_)
      rw [Label.proger, hpc]
      exact Nat.le_add_right _ _
    · cases h
  | getTask p | addTask p | semPost p =>
    simp only [step] at h
    split at h
    · next hpc =>
      cases h
      exact hmove rfl (by simp [Label.proger, hpc, Pc.toGet])
    · cases h

/-- **A step of the waiting time**, with the steps on the mutex: a step of `r` brings it nearer
    to the program. -/
theorem waiting_step (hi : Inv s.abs) (hq : Queued q r s.abs) (hs : (waiting q r).step s a s') :
    Queued q r s'.abs ∧ ahead q r s'.abs + (decide (a = .getTask r)).toNat ≤ ahead q r s.abs ∧
      toTake q r s' + (decide (a.proger = r)).toNat ≤ toTake q r s := by
  obtain ⟨hs, hne⟩ := hs
  have hahead : Queued q r s'.abs ∧ ahead q r s'.abs + (decide (a = .getTask r)).toNat ≤ ahead q r s.abs := by
    obtain ⟨hnone, habs⟩ | ⟨b, hb, habs⟩ := step_label hs
    · have ha : a ≠ .getTask r := by
        rintro rfl
        cases hnone
      rw [habs, decide_eq_false ha]
      exact ⟨hq, Nat.le_refl _⟩
    · have hiff : b = .getTask r ↔ a = .getTask r := by
        rw [← abs_eq_getTask, hb, Option.some.injEq]
      rw [← decide_eq_decide.2 hiff]
      exact Programmers.waiting_step hi hq habs fun htakes => hne ⟨hiff.1 htakes.1, htakes.2⟩
  refine ⟨hahead.1, hahead.2, ?_⟩
  obtain ⟨hframe, hnear⟩ := @toGet_step r s s' a hs
  have hle := hahead.2
  unfold toTake
  by_cases hr : a.proger = r
  · rw [decide_eq_true hr, Bool.toNat_true]
    rw [hr] at hnear
    by_cases ha : a = .getTask r
    · rw [decide_eq_true ha, Bool.toNat_true] at hle hnear
      omega
    · rw [decide_eq_false ha, Bool.toNat_false] at hle hnear
      omega
  · rw [decide_eq_false hr, Bool.toNat_false, hframe hr]
    omega

/-! ## The bounds -/

theorem toTake_le (hi : Inv s.abs) (hq : Queued q r s.abs) : ahead q r s.abs ≤ 2 ∧ toTake q r s ≤ 22 := by
  have hle := hq.ahead_add_hand_le hi
  refine ⟨by omega, ?_⟩
  unfold toTake
  cases hpc : s.pc r with
  | getUnlock | hold | addLock | add =>
    -- one of the three programs is in the hands of `r`
    simp only [abs_pc hpc, Pc.abs, Programmers.Pc.hand, List.length_singleton] at hle
    simp only [Pc.toGet]
    omega
  | wait | getLock | get | addUnlock | post =>
    simp only [Pc.toGet]
    omega

/-- Between the two calls on the mutex, and behind them, nothing stops a programmer. -/
theorem enabled_of_locked {p : Proger} (h : (s.pc p).locked = true) : Enabled s p := by
  refine enabled_of (fun hw => ?_) fun hl => ?_
  · rw [hw] at h
    cases h
  · cases hpc : s.pc p <;> simp [hpc, Pc.locked, Pc.lock] at h hl

/-- The programmer has added a task for `r` and is about to wake it. -/
def Wakes (s : State) (r p : Proger) : Prop := s.pc p = .addUnlock r ∨ s.pc p = .post r

/-- **Nobody is in the way**: `r` can go on, or the programmer that is about to wake it, or the
    one that has the mutex. -/
theorem exists_enabled (h : system.Reachable s) (hq : Queued q r s.abs) :
    ∃ p, Enabled s p ∧ (p = r ∨ Wakes s r p ∨ (s.pc p).locked = true) := by
  by_cases hlocked : ∃ p, (s.pc p).locked = true
  · obtain ⟨p, hp⟩ := hlocked
    exact ⟨p, enabled_of_locked hp, Or.inr (Or.inr hp)⟩
  · -- the mutex is open
    have hmutex : 0 < s.mutex := by
      have hsum := mutex_reachable h
      have hzero : num (fun q => (s.pc q).locked = true) = 0 := by
        by_contra hne
        exact hlocked (exists_of_num_pos (Nat.pos_of_ne_zero hne))
      omega
    by_cases hwait : s.pc r = .wait ∧ s.sems r = 0
    · -- the queue is longer than its semaphore says
      have hsems := (inv_reachable (reachable_abs h)).sems r
      rw [unposted_abs, ungot_abs, ungot, if_neg (by simp [hwait.1]), show s.abs.sems r = 0 from hwait.2] at hsems
      have hlt := hq.ahead_lt
      obtain ⟨p, hp⟩ := exists_of_num_pos (P := fun p => s.pc p = .addUnlock r ∨ s.pc p = .post r)
        (show 0 < unposted s r by omega)
      refine ⟨p, enabled_of (fun hw => ?_) fun _ => hmutex, Or.inr (Or.inl hp)⟩
      rcases hp with hp | hp <;> cases hw.symm.trans hp
    · exact ⟨r, enabled_of (fun hw => Nat.pos_of_ne_zero fun h0 => hwait ⟨hw, h0⟩) fun _ => hmutex, Or.inl rfl⟩

/-- **Bounded waiting.**  A program that is in a queue waits for two others at most: before
    it is taken, the programmer of the queue takes no more than two other tasks and no more
    than 22 steps, those on the mutex included.  All the time that programmer can go on, or the
    one that is about to wake it, or the one that has the mutex. -/
theorem bounded_waiting {tr : List (State × Label)} (h : system.Reachable s) (hq : Queued q r s.abs)
    (hrun : (waiting q r).Steps s tr s') :
    tr.countP (fun x => decide (x.2 = .getTask r)) ≤ 2 ∧ tr.countP (fun x => decide (x.2.proger = r)) ≤ 22 ∧
      ∃ p, Enabled s' p ∧ (p = r ∨ Wakes s' r p ∨ (s'.pc p).locked = true) := by
  obtain ⟨htakes, hsteps⟩ := toTake_le (inv_reachable (reachable_abs h)) hq
  have hkeep : ∀ s a s', system.Reachable s ∧ Queued q r s.abs → (waiting q r).step s a s' →
      system.Reachable s' ∧ Queued q r s'.abs :=
    fun s a s' hJ hs => ⟨hJ.1.step hs.1, (waiting_step (inv_reachable (reachable_abs hJ.1)) hJ.2 hs).1⟩
  have hahead := (hrun.countP_le (J := fun s => system.Reachable s ∧ Queued q r s.abs) (fun s => ahead q r s.abs)
    (fun x => decide (x.2 = .getTask r))
    (fun s a s' hJ hs => ⟨hkeep s a s' hJ hs, (waiting_step (inv_reachable (reachable_abs hJ.1)) hJ.2 hs).2.1⟩)
    ⟨h, hq⟩).2
  obtain ⟨⟨h', hq'⟩, htake⟩ := hrun.countP_le (J := fun s => system.Reachable s ∧ Queued q r s.abs) (toTake q r)
    (fun x => decide (x.2.proger = r))
    (fun s a s' hJ hs => ⟨hkeep s a s' hJ hs, (waiting_step (inv_reachable (reachable_abs hJ.1)) hJ.2 hs).2.2⟩)
    ⟨h, hq⟩
  exact ⟨by omega, by omega, exists_enabled h' hq'⟩

/-- Programmer 0 has sent the first program to programmer 1, which takes its own task first. -/
theorem bounded_waiting_second : ∃ (s s' : State) (tr : List (State × Label)), s.buffer.tasks 1 = [-1, 0] ∧
    tr.countP (fun x => decide (x.2 = .getTask 1)) = 1 ∧
    tr.countP (fun x => decide (x.2 = .getTask 1)) ≤ 2 ∧ tr.countP (fun x => decide (x.2.proger = 1)) ≤ 22 ∧
      ∃ p, Enabled s' p ∧ (p = 1 ∨ Wakes s' 1 p ∨ (s'.pc p).locked = true) := by
  obtain ⟨s, -, he, hs⟩ := System.exec_of_any initial step
    [.semWait 0, .lock 0, .getTask 0, .unlock 0, .choose 0 (.reviewer 1), .lock 0, .addTask 0]
    (fun s => s.buffer.tasks 1 = [-1, 0] ∧
      (System.runFn step s [.semWait 1, .unlock 0, .lock 1, .getTask 1, .unlock 1]).isSome = true ∧
      (∀ x ∈ System.traceFn step s [.semWait 1, .unlock 0, .lock 1, .getTask 1, .unlock 1],
        ¬ Takes 0 1 x.1 x.2) ∧
      (System.traceFn step s [.semWait 1, .unlock 0, .lock 1, .getTask 1, .unlock 1]).countP
        (fun x => decide (x.2 = .getTask 1)) = 1) (by decide)
  obtain ⟨htasks, hrun, hwaits, hcount⟩ := of_decide_eq_true hs
  obtain ⟨s', hrun⟩ := Option.isSome_iff_exists.1 hrun
  have hqueued : Queued 0 1 s.abs := ⟨0, by simp [State.abs, htasks], by decide⟩
  exact ⟨s, s', _, htasks, hcount, bounded_waiting ⟨_, he⟩ hqueued ((System.Steps.runFn hrun).restrict hwaits)⟩

end Mutex

end Programmers
