/-
  The programmers (idz os 2/4-5): what follows a negative verdict.  The program
  stays with its reviewer until the first positive verdict, and its author has
  nothing to do with it until then.
-/
import OsCourse.Programmers.Events

namespace Programmers

open Transition Counting System

/-! ## Where a program is -/

theorem Pc.hand_hold {s : State} {p : Proger} {task : ℤ} (h : s.pc p = .hold task) :
    task ∈ (s.pc p).hand := by rw [h]; exact List.mem_singleton_self _

theorem Pc.hand_add {s : State} {p target : Proger} {task sent : ℤ} (h : s.pc p = .add task target sent) :
    task ∈ (s.pc p).hand := by rw [h]; exact List.mem_singleton_self _

/-- A program is with one programmer only. -/
theorem Inv.eq_of_isToken {s : State} (h : Inv s) {q r r' : Proger} {t t' : ℤ} (ht : t ∈ s.tasks r)
    (ht' : t' ∈ s.tasks r') (hq : isToken q r t) (hq' : isToken q r' t') : r = r' := by
  by_contra hne
  have h1 : 0 < (s.tasks r).countP (isToken q r) := List.countP_pos_iff.2 ⟨t, ht, hq⟩
  have h2 : 0 < (s.tasks r').countP (isToken q r') := List.countP_pos_iff.2 ⟨t', ht', hq'⟩
  have h3 := Finset.add_le_sum (f := fun u => (s.tasks u).countP (isToken q u))
    (fun _ _ => Nat.zero_le _) (Finset.mem_univ r) (Finset.mem_univ r') hne
  have : ∑ u, (s.tasks u).countP (isToken q u) = 1 := h.token q
  omega

/-- A program that is in hand is in no queue. -/
theorem Inv.not_mem_of_hand {s : State} (h : Inv s) {q r : Proger} {t t' : ℤ} (ht : t ∈ s.buffer.tasks r)
    (ht' : t' ∈ (s.pc r).hand) (hq : isToken q r t) (hq' : isToken q r t') : False := by
  have h1 : 0 < (s.buffer.tasks r).countP (isToken q r) := List.countP_pos_iff.2 ⟨t, ht, hq⟩
  have h2 : 0 < (s.pc r).hand.countP (isToken q r) := List.countP_pos_iff.2 ⟨t', ht', hq'⟩
  have h3 := Finset.single_le_sum (f := fun u => (s.tasks u).countP (isToken q u))
    (fun _ _ => Nat.zero_le _) (Finset.mem_univ r)
  have : ∑ u, (s.tasks u).countP (isToken q u) = 1 := h.token q
  simp only [State.tasks, List.countP_append] at h3 this
  omega

theorem mem_tasks_addTask {buffer : SharedMem} {target r : Proger} {t sent : ℤ}
    (h : t ∈ buffer.tasks r) : t ∈ (addTask buffer target sent).tasks r := by
  rw [tasks_addTask]
  split_ifs with hr
  · obtain ⟨rfl, -⟩ := hr; exact List.mem_append_left _ h
  · exact h

/-! ## From a negative verdict to the next positive one -/

/-- `r` keeps the program of `q` for a re-review. -/
def Kept (r q : Proger) (s : State) : Prop :=
  r ≠ q ∧ ((q : ℤ) + numProgs ∈ s.buffer.tasks r ∨ s.pc r = .hold (q + numProgs) ∨
    ∃ task, s.pc r = .add task r (q + numProgs))

theorem isToken_again {q r : Proger} (h : r ≠ q) : isToken q r ((q : ℤ) + numProgs) := by
  simp [isToken, h]

/-- What is kept is the program of `q`. -/
theorem Kept.token {r q : Proger} {s : State} (hi : Inv s) (h : Kept r q s) :
    ∃ t ∈ s.tasks r, isToken q r t := by
  obtain ⟨hne, h | h | ⟨task, h⟩⟩ := h
  · exact ⟨_, List.mem_append_left _ h, isToken_again hne⟩
  · exact ⟨_, List.mem_append_right _ (Pc.hand_hold h), isToken_again hne⟩
  · refine ⟨task, List.mem_append_right _ (Pc.hand_add h), ?_⟩
    rw [hi.sent _ _ _ _ h]; exact isToken_again hne

/-- A reviewer with a program in hand is not its author. -/
theorem Inv.reviewer_ne {s : State} (h : Inv s) {r q : Proger} {again : Bool}
    (hpc : s.pc r = .hold (if again then (q : ℤ) + numProgs else q)) :
    r ≠ q ∧ isToken q r (if again then (q : ℤ) + numProgs else q) := by
  have hne : r ≠ q := by
    rintro rfl
    obtain ⟨q', hq'⟩ := h.legal r _ (List.mem_append_right _ (Pc.hand_hold hpc))
    cases again with
    | false => exact (isToken_ne hq').1 rfl
    | true => exact (isToken_ne hq').2 rfl
  refine ⟨hne, ?_⟩
  cases again with
  | false => simp [isToken, hne]
  | true => exact isToken_again hne

/-- A negative verdict leaves the program with the reviewer. -/
theorem kept_of_verdict {s s' : State} {a : Label} {r q : Proger} {again : Bool} (hi : Inv s)
    (hs : step s a = some s') (he : event s a = some (.verdict r q again false)) : Kept r q s' := by
  obtain ⟨_, _, h⟩ | ⟨_, _, _, h⟩ | ⟨p, q', again', ok, rfl, hpc, h⟩ | ⟨_, _, _, _, _, _, h⟩ :=
    event_cases he
  · cases h
  · cases h
  · obtain ⟨rfl, rfl, rfl, rfl⟩ := Event.verdict.inj h
    simp only [step, hpc, branch_verdict, Option.map_some, Option.some.injEq] at hs
    subst hs
    exact ⟨(hi.reviewer_ne hpc).1, .inr (.inr ⟨_, Function.update_self ..⟩)⟩
  · cases h

/-- What another programmer does: the queue of `r` keeps its tasks. -/
theorem step_frame {s s' : State} {a : Label} {r : Proger} (hi : Inv s) (hs : step s a = some s')
    (hr : r ≠ a.proger) : s'.pc r = s.pc r ∧ ∀ t ∈ s.buffer.tasks r, t ∈ s'.buffer.tasks r := by
  obtain ⟨p, rfl, hpc, hpos, rfl⟩ | ⟨p, rfl, hpc, rfl⟩ | ⟨p, c, task, m, rfl, hpc, hb, rfl⟩ |
    ⟨p, task, target, sent, rfl, hpc, rfl⟩ | ⟨p, target, rfl, hpc, rfl⟩ := step_cases hs
  · exact ⟨Function.update_of_ne hr _ _, fun _ h => h⟩
  · obtain ⟨task, rest, ht⟩ := List.exists_cons_of_ne_nil (hi.get_ne_nil hpc)
    refine ⟨Function.update_of_ne hr _ _, fun t h => ?_⟩
    show t ∈ (getTask s.buffer p).2.tasks r
    rwa [(tasks_getTask ht).2, Function.update_of_ne (show r ≠ p from hr)]
  · exact ⟨Function.update_of_ne hr _ _, fun _ h => h⟩
  · exact ⟨Function.update_of_ne hr _ _, fun _ h => mem_tasks_addTask h⟩
  · exact ⟨Function.update_of_ne hr _ _, fun _ h => h⟩

/-- **The program stays with the reviewer** through all steps but its positive
    verdict. -/
theorem kept_step {s s' : State} {a : Label} {r q : Proger} (hi : Inv s) (h : Kept r q s)
    (hs : step s a = some s')
    (hno : ∀ e, event s a = some e → ∀ p again, e ≠ .verdict p q again true) : Kept r q s' := by
  obtain ⟨hne, h⟩ := h
  refine ⟨hne, ?_⟩
  by_cases hr : r = a.proger
  swap
  · obtain ⟨hpc, htasks⟩ := step_frame hi hs hr
    rw [hpc]
    exact h.imp_left (htasks _)
  subst hr
  obtain ⟨r, rfl, hpc, hpos, rfl⟩ | ⟨r, rfl, hpc, rfl⟩ | ⟨r, c, task, m, rfl, hpc, hb, rfl⟩ |
    ⟨r, task, target, sent, rfl, hpc, rfl⟩ | ⟨r, target, rfl, hpc, rfl⟩ := step_cases hs
  · -- `sem_wait`
    simpa [Label.proger, hpc] using h
  · -- `get_task`: if it takes the program, this is in hand
    obtain ⟨task, rest, ht⟩ := List.exists_cons_of_ne_nil (hi.get_ne_nil hpc)
    obtain ⟨h1, h2⟩ := tasks_getTask ht
    have h' : (q : ℤ) + numProgs = task ∨ (q : ℤ) + numProgs ∈ rest := by
      simpa [Label.proger, hpc, ht] using h
    rcases h' with h' | h'
    · refine .inr (.inl ?_)
      show Function.update _ _ _ _ = _
      rw [Label.proger, Function.update_self, h1, h']
    · refine .inl ?_
      show _ ∈ (getTask s.buffer r).2.tasks r
      rw [h2, Function.update_self]; exact h'
  · -- the branches: the program can only be rejected again
    rcases h with h | h | ⟨_, h⟩
    · exact .inl h
    · obtain rfl : task = q + numProgs := by rw [Label.proger, hpc] at h; exact Pc.hold.inj h
      have hq := q.lt
      have hn : numProgs = 3 := rfl
      cases c with
      | reviewer r' =>
        simp only [branch, Option.ite_none_right_eq_some] at hb
        omega
      | verdict ok =>
        have hbv := branch_verdict r q true ok
        simp only [if_true] at hbv
        rw [hbv] at hb
        obtain rfl := Option.some.inj hb
        cases ok with
        | false => exact .inr (.inr ⟨_, Function.update_self ..⟩)
        | true =>
          have hv : verdictOn ((q : ℤ) + numProgs) = some (q, true) := verdictOn_eq.2 rfl
          refine absurd rfl (hno (.verdict r q true true) ?_ r true)
          simp only [event, eventOf, Label.proger, hpc, hv, Option.map_some]
      | skip =>
        simp only [branch] at hb
        split_ifs at hb
        omega
    · rw [Label.proger, hpc] at h; cases h
  · -- `add_task`: the program goes into the own queue
    rcases h with h | h | ⟨task', h⟩
    · exact .inl (mem_tasks_addTask h)
    · rw [Label.proger, hpc] at h; cases h
    · rw [Label.proger, hpc] at h
      obtain ⟨-, rfl, rfl⟩ := Pc.add.inj h
      refine .inl ?_
      show _ ∈ (addTask s.buffer _ _).tasks _
      rw [tasks_addTask_of_lt (hi.length_lt _), Label.proger, Function.update_self]
      exact List.mem_append_right _ (List.mem_singleton_self _)
  · -- `sem_post`
    simpa [Label.proger, hpc] using h

/-- The program is with the reviewer as long as there has been no positive
    verdict since the negative one. -/
theorem kept_of_exec {tr : List (State × Label)} {s : State} (h : system.Exec tr s)
    {pre mid : List Event} {r q : Proger} {again : Bool}
    (htr : events event tr = pre ++ .verdict r q again false :: mid)
    (hmid : ∀ p again', .verdict p q again' true ∉ mid) : Kept r q s := by
  refine h.since (K := Kept r q) (fun e => ∃ p again', e = .verdict p q again' true)
    (fun s a s' hr hs he => kept_of_verdict (inv_reachable hr) hs he)
    (fun s a s' hr hk hs hno => kept_step (inv_reachable hr) hk hs fun e he p again' heq =>
      hno e he ⟨p, again', heq⟩) htr ?_
  rintro e he ⟨p, again', rfl⟩
  exact hmid p again' he

/-- **While a program is kept for a re-review**, all verdicts on it are the
    reviewer's, and its author is neither handed nor takes an own task. -/
theorem Kept.of_event {s s' : State} {a : Label} {r q : Proger} {e : Event} (hi : Inv s) (h : Kept r q s)
    (hs : step s a = some s') (he : event s a = some e) :
    (∀ p again ok, e = .verdict p q again ok → p = r) ∧ e ≠ .added q (-1) ∧
      (∀ task, e = .taken q task → ¬ isToken q q task) := by
  obtain ⟨t, ht, htok⟩ := h.token hi
  obtain ⟨p, rfl, rfl⟩ | ⟨p, r', rfl, rfl⟩ | ⟨p, q', again, ok, rfl, hpc, rfl⟩ |
    ⟨p, task, target, sent, rfl, hpc, rfl⟩ := event_cases he
  · -- `get_task`
    refine ⟨fun _ _ _ h => (by cases h), fun h => (by cases h), ?_⟩
    rintro task heq htok'
    obtain ⟨rfl, rfl⟩ := Event.taken.inj heq
    have hpc : s.pc p = .get := by
      simp only [step] at hs
      split at hs
      · assumption
      · cases hs
    obtain ⟨task, rest, hq⟩ := List.exists_cons_of_ne_nil (hi.get_ne_nil hpc)
    rw [(tasks_getTask hq).1] at htok'
    have hmem : task ∈ s.tasks p := by simp [State.tasks, hq]
    exact h.1 (hi.eq_of_isToken ht hmem htok htok')
  · exact ⟨fun _ _ _ h => (by cases h), fun h => (by cases h), fun _ h => (by cases h)⟩
  · -- a verdict
    refine ⟨?_, fun h => (by cases h), fun _ h => (by cases h)⟩
    intro p' again' ok' heq
    obtain ⟨rfl, rfl, rfl, rfl⟩ := Event.verdict.inj heq
    exact hi.eq_of_isToken (List.mem_append_right _ (Pc.hand_hold hpc)) ht (hi.reviewer_ne hpc).2 htok
  · -- `add_task`: a new own task for `q` would come from the hands of its reviewer
    refine ⟨fun _ _ _ h => (by cases h), ?_, fun _ h => (by cases h)⟩
    intro heq
    obtain ⟨rfl, rfl⟩ := Event.added.inj heq
    have htok' : isToken target p task := by
      rw [hi.sent _ _ _ _ hpc]; simp [isToken]
    obtain rfl := hi.eq_of_isToken ht (List.mem_append_right _ (Pc.hand_add hpc)) htok htok'
    obtain ⟨hne, hk | hk | ⟨_, hk⟩⟩ := h
    · exact hi.not_mem_of_hand hk (Pc.hand_add hpc) (isToken_again hne) htok'
    · rw [hpc] at hk; cases hk
    · rw [hpc] at hk
      exact hne (Pc.add.inj hk).2.1.symm

/-- A programmer never takes up the own program as a task to review. -/
theorem taken_ne {s s' : State} {a : Label} {q : Proger} {task : ℤ} (hi : Inv s)
    (hs : step s a = some s') (he : event s a = some (.taken q task)) :
    task ≠ (q : ℤ) ∧ task ≠ q + numProgs := by
  obtain ⟨p, rfl, h⟩ | ⟨_, _, _, h⟩ | ⟨_, _, _, _, _, _, h⟩ | ⟨_, _, _, _, _, _, h⟩ := event_cases he
  · obtain ⟨rfl, rfl⟩ := Event.taken.inj h
    have hpc : s.pc q = .get := by
      simp only [step] at hs
      split at hs
      · assumption
      · cases hs
    obtain ⟨task, rest, hq⟩ := List.exists_cons_of_ne_nil (hi.get_ne_nil hpc)
    rw [(tasks_getTask hq).1]
    obtain ⟨q', hq'⟩ := hi.legal q task (by simp [State.tasks, hq])
    exact isToken_ne hq'
  · cases h
  · cases h
  · cases h

/-- What an event after a negative verdict can be, as long as there has been no
    positive one. -/
theorem after_negative {tr : List (State × Label)} {s : State} (h : system.Exec tr s)
    {pre mid post : List Event} {r q : Proger} {again : Bool} {e : Event}
    (htr : events event tr = (pre ++ .verdict r q again false :: mid) ++ e :: post)
    (hmid : ∀ p again', .verdict p q again' true ∉ mid) :
    (∀ p again' ok, e = .verdict p q again' ok → p = r) ∧ e ≠ .added q (-1) ∧
      ∀ task, e = .taken q task → ¬ isToken q q task ∧ task ≠ q ∧ task ≠ q + numProgs := by
  obtain ⟨tr', s₁, a, s₂, hx, hs, hev, he⟩ := h.exists_of_events htr
  have hi := inv_reachable ⟨tr', hx⟩
  obtain ⟨h1, h2, h3⟩ := (kept_of_exec hx hev hmid).of_event hi hs he
  refine ⟨h1, h2, ?_⟩
  rintro task rfl
  exact ⟨h3 task rfl, taken_ne hi hs he⟩

namespace Mutex

/-- **The reviewer stays the same.**  When `r` has given a negative verdict on the
    program of `q`, all verdicts on the program of `q` up to the first positive
    one are given by `r`, and `q` is neither handed nor takes an own task before
    that one. -/
theorem same_reviewer {tr : List (State × Label)} {s : State} (h : system.Exec tr s)
    {pre mid post : List Event} {r q : Proger} {again : Bool} {e : Event}
    (htr : events event tr = (pre ++ .verdict r q again false :: mid) ++ e :: post)
    (hmid : ∀ p again', .verdict p q again' true ∉ mid) :
    (∀ p again' ok, e = .verdict p q again' ok → p = r) ∧ e ≠ .added q (-1) ∧ e ≠ .taken q (-1) := by
  obtain ⟨tr', t, hx, hev, -⟩ := simulation_abs.exec h
  obtain ⟨h1, h2, h3⟩ := after_negative hx (hev.trans htr) hmid
  refine ⟨h1, h2, ?_⟩
  rintro rfl
  exact (h3 (-1) rfl).1 (by simp [isToken])

/-- Programmer 1 rejects the program of programmer 0, takes it again, and says that
    it is now correct. -/
def rejected : List Label :=
  [.semWait 0, .lock 0, .getTask 0, .unlock 0, .choose 0 (.reviewer 1), .lock 0, .addTask 0, .unlock 0,
   .semPost 0, .semWait 1, .lock 1, .getTask 1, .unlock 1, .choose 1 (.reviewer 2), .lock 1, .addTask 1,
   .unlock 1, .semPost 1, .semWait 1, .lock 1, .getTask 1, .unlock 1, .choose 1 (.verdict false), .lock 1,
   .addTask 1, .unlock 1, .semPost 1, .semWait 1, .lock 1, .getTask 1, .unlock 1,
   .choose 1 (.verdict true)]

theorem rejected_events : events event (traceFn step initial rejected) =
    ([.taken 0 (-1), .reviewer 0 1, .added 1 0, .taken 1 (-1), .reviewer 1 2, .added 2 1, .taken 1 0] ++
      .verdict 1 0 false false :: [.added 1 3, .taken 1 3]) ++ .verdict 1 0 true true :: [] := by
  decide +kernel

theorem rejected_exec : ∃ s, system.Exec (traceFn step initial rejected) s := by
  obtain ⟨s, -, he, -⟩ := exec_of_any initial step rejected (fun _ => true) (by decide +kernel)
  exact ⟨s, he⟩

theorem same_reviewer_rejected : ∃ tr s, system.Exec tr s ∧ Event.verdict 1 0 false false ∈ events event tr ∧
    (∀ p again' ok, Event.verdict 1 0 true true = .verdict p 0 again' ok → p = 1) ∧
      Event.verdict 1 0 true true ≠ .added 0 (-1) ∧ Event.verdict 1 0 true true ≠ .taken 0 (-1) := by
  obtain ⟨s, he⟩ := rejected_exec
  refine ⟨_, s, he, by rw [rejected_events]; simp, same_reviewer he rejected_events ?_⟩
  intro p again' h
  simp at h

/-! ## The author and the rejected program -/

/-- `q` takes up its own program. -/
def TakesUp (q : Proger) (e : Event) : Prop :=
  ∃ task, e = .taken q task ∧ (task = -1 ∨ task = q ∨ task = q + numProgs)

/-- Between a negative verdict and the next verdict on the same program, its author
    takes it up. -/
def FixedByAuthor (es : List Event) : Prop :=
  ∀ pre mid post r q again p again' ok,
    es = (pre ++ .verdict r q again false :: mid) ++ .verdict p q again' ok :: post →
      (∀ p' b ok', .verdict p' q b ok' ∉ mid) → ∃ e ∈ mid, TakesUp q e

/-- A program is judged again after a negative verdict. -/
def Rejudged (es : List Event) : Prop :=
  ∃ pre mid post r q again p again' ok,
    es = (pre ++ .verdict r q again false :: mid) ++ .verdict p q again' ok :: post

/-- **The author never fixes the program**: a run does what the task asks for iff
    no program is judged again after a negative verdict in it. -/
theorem fixedByAuthor_iff {tr : List (State × Label)} {s : State} (h : system.Exec tr s) :
    FixedByAuthor (events event tr) ↔ ¬ Rejudged (events event tr) := by
  constructor
  · rintro hfix ⟨pre, mid, post, r, q, again, p, again', ok, htr⟩
    -- the first verdict on the program after the negative one
    obtain ⟨mid', x, post', heq, ⟨p', b, ok', rfl⟩, hno⟩ :=
      exists_first (P := fun e => ∃ p b ok, e = Event.verdict p q b ok)
        (l := mid ++ .verdict p q again' ok :: post) (e := .verdict p q again' ok) (by simp) ⟨p, again', ok, rfl⟩
    rw [List.append_assoc, List.cons_append, heq, ← List.cons_append, ← List.append_assoc] at htr
    obtain ⟨e, he, task, rfl, htask⟩ := hfix pre mid' post' r q again p' b ok' htr
      fun p b ok hm => hno _ hm ⟨p, b, ok, rfl⟩
    obtain ⟨l, l', rfl⟩ := List.append_of_mem he
    obtain ⟨tr', t, hx, hev, -⟩ := simulation_abs.exec h
    rw [← List.cons_append, ← List.append_assoc, List.append_assoc _ _ (Event.verdict p' q b ok' :: post'),
      List.cons_append] at htr
    obtain ⟨-, -, h3⟩ := after_negative hx (hev.trans htr)
      fun p b hm => hno _ (List.mem_append_left _ hm) ⟨p, b, true, rfl⟩
    obtain ⟨h1, h2, h3⟩ := h3 task rfl
    rcases htask with rfl | rfl | rfl
    · exact h1 (by simp [isToken])
    · exact h2 rfl
    · exact h3 rfl
  · intro hno pre mid post r q again p again' ok htr
    exact absurd ⟨pre, mid, post, r, q, again, p, again', ok, htr⟩ hno

/-- A run in which programmer 1 judges a program of programmer 0 again, without a
    step of programmer 0 in between. -/
theorem not_fixedByAuthor : ¬ ∀ tr s, system.Exec tr s → FixedByAuthor (events event tr) := by
  intro h
  obtain ⟨s, he⟩ := rejected_exec
  obtain ⟨e, hm, task, rfl, -⟩ := h _ s he _ _ _ _ _ _ _ _ _ rejected_events (by
    intro p' b ok' hm; simp at hm)
  simp at hm

theorem fixedByAuthor_iff_rejected : ∃ tr s, system.Exec tr s ∧ tr ≠ [] ∧
    (FixedByAuthor (events event tr) ↔ ¬ Rejudged (events event tr)) := by
  obtain ⟨s, he⟩ := rejected_exec
  exact ⟨_, s, he, by simp [rejected, traceFn], fixedByAuthor_iff he⟩

end Mutex

end Programmers
