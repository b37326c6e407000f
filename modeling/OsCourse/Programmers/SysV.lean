/-
  The programmers (idz os 2/9): System V semaphores and message queues.  The
  initializer resets the semaphores but takes the queues over as an earlier run
  has left them; the programs are conserved iff that run has left the queues
  empty.
-/
import OsCourse.Programmers.Queues

namespace Programmers.Queues.SysV

open Transition Counting System

variable (limit : ℕ)

/-- What `msgsnd` with `IPC_NOWAIT` leaves in a queue for `limit` messages: on a full
    one it fails, and `add_task` prints an error. -/
def push (q : List ℤ) (task : ℤ) : List ℤ := if q.length < limit then q ++ [task] else q

/-- `msgsnd` and `msgrcv` with `IPC_NOWAIT`.  `get_task` asks for messages of any
    type, and returns -1 if there is none. -/
def calls : Calls where
  send q task := some (push limit q task)
  receive
    | [] => some (-1, [])
    | task :: q => some (task, q)

/-- The semaphores and queues that exist under the keys. -/
structure Keys where
  sems : Proger → Option ℕ
  queues : Proger → Option (List ℤ)

/-- The messages that an earlier run has left. -/
def Keys.left (k : Keys) (p : Proger) : List ℤ := (k.queues p).getD []

/-- One round of the loop that gets the semaphores and queues: `semget` and
    `msgget` with `IPC_CREAT` take over what exists, `SETVAL` sets the semaphore
    to 0. -/
def create (k : Keys) (i : Proger) : Keys where
  sems := Function.update k.sems i (some 0)
  queues := Function.update k.queues i (some (k.left i))

/-- One round of the loop that adds the initial tasks: `add_task`, `sem_post`. -/
def addInitial (s : State) (i : Proger) : State :=
  { s with queues := Function.update s.queues i (push limit (s.queues i) (-1))
           sems := Function.update s.sems i (s.sems i + 1) }

/-- The initializer, and the start of the three processes. -/
def initializer (k : Keys) : State :=
  let k' := [0, 1, 2].foldl create k
  [0, 1, 2].foldl (addInitial limit)
    { queues := k'.left, sems := fun i => (k'.sems i).getD 0, pc := fun _ => .wait }

theorem initializer_eq (k : Keys) :
    initializer limit k =
      { queues := fun p => push limit (k.left p) (-1), sems := fun _ => 1, pc := fun _ => .wait } := by
  simp only [initializer, List.foldl_cons, List.foldl_nil, addInitial, create, State.mk.injEq, and_true]
  constructor
  · funext p; fin_cases p <;> rfl
  · funext p; fin_cases p <;> rfl

variable {limit}

/-! ## Empty queues -/

theorem calls_fifo (hlimit : numProgs ≤ limit) : (calls limit).Fifo where
  send q t h := by
    show some (push limit q t) = _
    rw [push, if_pos (Nat.lt_of_lt_of_le h hlimit)]
  receive _ _ := rfl

/-- The tasks that are queued for `r` or in the hands of `r`. -/
def tasks (s : State) (r : Proger) : List ℤ := s.queues r ++ (s.pc r).hand

/-- The number of programs of `q` in the whole system. -/
def tokens (s : State) (q : Proger) : ℕ := ∑ r, (tasks s r).countP (isToken q r)

theorem tokens_sim {s : State} {t : Programmers.State} (h : Sim s t) (q : Proger) :
    tokens s q = Programmers.tokens t q := by
  obtain ⟨h1, -, h3⟩ := h
  simp only [tokens, tasks, h1, h3]
  rfl

/-- **With empty queues the programs are conserved.** -/
theorem tokens_of_empty (hlimit : numProgs ≤ limit) {k : Keys} (hk : ∀ p, k.left p = [])
    {s : State} (h : (system (calls limit) (initializer limit k)).Reachable s) (q : Proger) :
    tokens s q = 1 := by
  have hi : initializer limit k = Queues.initial := by
    have : ∀ p, push limit (k.left p) (-1) = [-1] := by
      intro p
      rw [hk, push, if_pos (Nat.lt_of_lt_of_le (by decide) hlimit)]; rfl
    simp only [initializer_eq, this, Queues.initial]
  rw [hi] at h
  obtain ⟨t, ht, hsim⟩ := (simulation (calls_fifo hlimit)).reachable h
  rw [tokens_sim hsim]
  exact (inv_reachable ht).token q

/-! ## Messages left behind -/

/-- All three processes wait, and the queues hold tasks and no more of them than
    they can. -/
structure Quiet (limit : ℕ) (s : State) : Prop where
  wait : ∀ p, s.pc p = .wait
  room : ∀ p, (s.queues p).length ≤ limit
  range : ∀ p, ∀ t ∈ s.queues p, -1 ≤ t ∧ t < 2 * numProgs

/-- One turn of `p` through the loop: it takes the first task, leaves `rest`, and
    sends `sent` to `target`. -/
def turn (limit : ℕ) (s : State) (p : Proger) (rest : List ℤ) (target : Proger) (sent : ℤ) : State where
  queues := Function.update (Function.update s.queues p rest) target
    (push limit (Function.update s.queues p rest target) sent)
  sems := Function.update (Function.update s.sems p (s.sems p - 1)) target
    (Function.update s.sems p (s.sems p - 1) target + 1)
  pc := s.pc

section
variable {s₀ s : State} {p target : Proger} {t sent : ℤ} {rest : List ℤ} {c : Choice}

theorem reachable_turn (h : (system (calls limit) s₀).Reachable s) (hq : Quiet limit s)
    (hpos : 0 < s.sems p) (ht : s.queues p = t :: rest)
    (hb : branch p t c = some (some (target, sent))) :
    (system (calls limit) s₀).Reachable (turn limit s p rest target sent) := by
  have hw := hq.wait p
  have h1 : step (calls limit) s (.semWait p) =
      some { s with sems := Function.update s.sems p (s.sems p - 1)
                    pc := Function.update s.pc p .get } := by
    simp only [step, hw]; exact if_pos hpos
  have h2 : step (calls limit) { s with sems := Function.update s.sems p (s.sems p - 1)
                                        pc := Function.update s.pc p .get } (.getTask p) =
      some { queues := Function.update s.queues p rest
             sems := Function.update s.sems p (s.sems p - 1)
             pc := Function.update s.pc p (.hold t) } := by
    simp only [step, Function.update_self, ht, calls, Option.map_some, Function.update_idem]
  have h3 : step (calls limit) { queues := Function.update s.queues p rest
                                 sems := Function.update s.sems p (s.sems p - 1)
                                 pc := Function.update s.pc p (.hold t) } (.choose p c) =
      some { queues := Function.update s.queues p rest
             sems := Function.update s.sems p (s.sems p - 1)
             pc := Function.update s.pc p (.add t target sent) } := by
    simp only [step, Function.update_self, hb, Option.map_some, Function.update_idem, afterBranch]
  have h4 : step (calls limit) { queues := Function.update s.queues p rest
                                 sems := Function.update s.sems p (s.sems p - 1)
                                 pc := Function.update s.pc p (.add t target sent) } (.addTask p) =
      some { queues := (turn limit s p rest target sent).queues
             sems := Function.update s.sems p (s.sems p - 1)
             pc := Function.update s.pc p (.post target) } := by
    simp only [step, Function.update_self, calls, Option.map_some, Function.update_idem, turn]
  have h5 : step (calls limit) { queues := (turn limit s p rest target sent).queues
                                 sems := Function.update s.sems p (s.sems p - 1)
                                 pc := Function.update s.pc p (.post target) } (.semPost p) =
      some (turn limit s p rest target sent) := by
    have hpc : Function.update s.pc p Pc.wait = s.pc := by rw [← hw]; exact Function.update_eq_self p s.pc
    simp only [step, Function.update_self, Function.update_idem, hpc]; rfl
  exact ((((h.step h1).step h2).step h3).step h4).step h5

theorem length_push (q : List ℤ) (h : q.length ≤ limit) : (push limit q t).length ≤ limit := by
  unfold push
  split_ifs with hlt
  · rw [List.length_append]; exact hlt
  · exact h

theorem mem_push {q : List ℤ} {x : ℤ} (h : x ∈ push limit q t) : x ∈ q ∨ x = t := by
  unfold push at h
  split_ifs at h
  · simpa using h
  · exact .inl h

theorem Quiet.turn (hq : Quiet limit s) (ht : s.queues p = t :: rest)
    (hsent : -1 ≤ sent ∧ sent < 2 * numProgs) : Quiet limit (turn limit s p rest target sent) := by
  have hroom : ∀ r, (Function.update s.queues p rest r).length ≤ limit := by
    refine (Function.forall_update_iff s.queues fun _ l => l.length ≤ limit).2 ⟨?_, fun r _ => hq.room r⟩
    have := hq.room p
    rw [ht, List.length_cons] at this
    omega
  have hrange : ∀ r, ∀ x ∈ Function.update s.queues p rest r, -1 ≤ x ∧ x < 2 * numProgs := by
    refine (Function.forall_update_iff s.queues fun _ l => ∀ x ∈ l, -1 ≤ x ∧ x < 2 * numProgs).2
      ⟨fun x hx => ?_, fun r _ => hq.range r⟩
    exact hq.range p x (by rw [ht]; exact List.mem_cons_of_mem _ hx)
  refine ⟨hq.wait, ?_, ?_⟩
  · exact (Function.forall_update_iff _ fun _ (l : List ℤ) => l.length ≤ limit).2
      ⟨length_push _ (hroom target), fun r _ => hroom r⟩
  · refine (Function.forall_update_iff _ fun _ (l : List ℤ) => ∀ x ∈ l, -1 ≤ x ∧ x < 2 * numProgs).2
      ⟨fun x hx => ?_, fun r _ => hrange r⟩
    rcases mem_push hx with hx | rfl
    · exact hrange target x hx
    · exact hsent

/-- **How one turn changes the number of programs of `q`.** -/
theorem tokens_turn (hq : Quiet limit s) (ht : s.queues p = t :: rest) (target : Proger) (sent : ℤ) (q : Proger) :
    tokens (turn limit s p rest target sent) q + (if isToken q p t then 1 else 0) =
      tokens s q + (if (Function.update s.queues p rest target).length < limit then
        (if isToken q target sent then 1 else 0) else 0) := by
  have htasks : ∀ s' : State, s'.pc = s.pc → ∀ r, tasks s' r = s'.queues r := by
    intro s' hpc r
    simp [tasks, hpc, hq.wait r, Pc.hand]
  have hpush : ∀ l r, (push limit l sent).countP (isToken q r) = l.countP (isToken q r) +
      if l.length < limit then (if isToken q r sent then 1 else 0) else 0 := by
    intro l r
    unfold push
    split_ifs <;> simp_all [List.countP_append]
  have hrest : ∀ r, (Function.update s.queues p rest r).countP (isToken q r) +
      (if r = p then (if isToken q p t then 1 else 0) else 0) = (s.queues r).countP (isToken q r) := by
    intro r
    by_cases hr : r = p
    · subst hr; simp [ht, List.countP_cons]
    · simp [hr]
  refine sum_move p target fun r => ?_
  rw [htasks (turn limit s p rest target sent) rfl, htasks s rfl, ← hrest r]
  by_cases hr : r = target
  · subst hr
    simp only [turn, Function.update_self, hpush, if_true]
    omega
  · simp only [turn, Function.update_of_ne hr, if_neg hr]
    omega

end

/-- A task that is not -1 can be rejected: it goes to the end of the same queue. -/
theorem branch_reject {p : Proger} {t : ℤ} (h : 0 ≤ t ∧ t < 2 * numProgs) :
    ∃ sent : ℤ, (-1 ≤ sent ∧ sent < 2 * numProgs) ∧ branch p t (.verdict false) = some (some (p, sent)) := by
  have hn : numProgs = 3 := rfl
  obtain ⟨q, again, rfl⟩ : ∃ (q : Proger) (again : Bool), t = if again then (q : ℤ) + numProgs else q := by
    by_cases h3 : t < numProgs
    · exact ⟨⟨t.toNat, by omega⟩, false, by simpa using h.1⟩
    · refine ⟨⟨(t - numProgs).toNat, by omega⟩, true, ?_⟩
      simp only [if_true]; omega
  have hq := q.lt
  exact ⟨q + numProgs, by omega, branch_verdict p q again false⟩

section
variable {s₀ s : State} {r r' : Proger} {pre post : List ℤ} {x u : ℤ}

/-- `p` rejects the first task of its queue: the others move up. -/
theorem exists_reject (h : (system (calls limit) s₀).Reachable s) (hq : Quiet limit s)
    (hu : 0 ≤ u) (hqueue : s.queues r = u :: pre) (hpos : 0 < s.sems r) :
    ∃ s' sent, (system (calls limit) s₀).Reachable s' ∧ Quiet limit s' ∧ 0 < s'.sems r ∧
      s'.queues = Function.update s.queues r (pre ++ [sent]) := by
  have hrange := hq.range r u (by rw [hqueue]; exact List.mem_cons_self)
  obtain ⟨sent, hsent, hb⟩ := branch_reject (p := r) ⟨hu, hrange.2⟩
  have hlt : pre.length < limit := by
    have := hq.room r
    rw [hqueue, List.length_cons] at this; omega
  refine ⟨_, sent, reachable_turn h hq hpos hqueue hb, hq.turn hqueue hsent, ?_, ?_⟩
  · simp only [turn, Function.update_self]; omega
  · simp only [turn, Function.update_self, Function.update_idem, push, if_pos hlt]

/-- A programmer with a program of `r` in its queue wakes `r` up again, and takes
    nothing from the queue of `r`. -/
theorem exists_post (h : (system (calls limit) s₀).Reachable s) (hq : Quiet limit s) (hne : r ≠ r')
    (hqueue : s.queues r' = pre ++ (r : ℤ) :: post) (hpos : 0 < s.sems r') :
    ∃ s' l, (system (calls limit) s₀).Reachable s' ∧ Quiet limit s' ∧ 0 < s'.sems r ∧
      s'.queues r = s.queues r ++ l := by
  have hr := r.lt
  have hr' := r'.lt
  have hn : numProgs = 3 := rfl
  -- a message from `r'` to `r` ends the search
  have hsend : ∀ (s : State) (sent : ℤ) {t : ℤ} {rest : List ℤ} {c : Choice},
      (system (calls limit) s₀).Reachable s → Quiet limit s → 0 < s.sems r' → s.queues r' = t :: rest →
      (-1 ≤ sent ∧ sent < 2 * numProgs) → branch r' t c = some (some (r, sent)) →
      ∃ s' l, (system (calls limit) s₀).Reachable s' ∧ Quiet limit s' ∧ 0 < s'.sems r ∧
        s'.queues r = s.queues r ++ l := by
    intro s sent t rest c h hq hpos ht hsent hb
    refine ⟨_, if (s.queues r).length < limit then [sent] else [], reachable_turn h hq hpos ht hb,
      hq.turn ht hsent, ?_, ?_⟩
    · simp [turn]
    · simp only [turn, Function.update_self, Function.update_of_ne hne, push]
      split_ifs <;> simp
  induction pre generalizing s post with
  | nil => exact hsend s (-1) h hq hpos hqueue (by omega) (branch_verdict r' r false true)
  | cons u pre ih =>
    have hu := hq.range r' u (by rw [hqueue]; exact List.mem_cons_self)
    by_cases hown : u = -1
    · refine hsend s r' h hq hpos hqueue (c := .reviewer r) (by omega) ?_
      simp [branch, hown, hne]
    · obtain ⟨s', sent, h', hq', hpos', hs'⟩ :=
        exists_reject h hq (by omega) hqueue hpos
      have hqueue' : s'.queues r' = pre ++ (r : ℤ) :: (post ++ [sent]) := by
        rw [hs', Function.update_self]; simp
      obtain ⟨s'', l, h'', hq'', hpos'', hs''⟩ := ih h' hq' hqueue' hpos'
      exact ⟨s'', l, h'', hq'', hpos'', by rw [hs'', hs', Function.update_of_ne hne]⟩

/-- **A program of `r` in the queue of `r` gets a second one into the system**: `r`
    comes to review it, and can accept it. -/
theorem not_conserved_of_mem (hall : ∀ s, (system (calls limit) s₀).Reachable s → ∀ q, tokens s q = 1)
    (h : (system (calls limit) s₀).Reachable s) (hq : Quiet limit s)
    (hx : ∃ again : Bool, x = if again then (r : ℤ) + numProgs else r)
    (hqueue : s.queues r = pre ++ x :: post) (hpos : 0 < s.sems r) : False := by
  have hr := r.lt
  have hn : numProgs = 3 := rfl
  induction pre generalizing s post with
  | nil =>
    obtain ⟨again, rfl⟩ := hx
    have h1 := hall _ (reachable_turn h hq hpos hqueue (branch_verdict r r again true)) r
    have h2 := tokens_turn hq hqueue r (-1) r
    have hlt : post.length < limit := by
      have := hq.room r
      rw [hqueue, List.nil_append, List.length_cons] at this; omega
    have hno : ¬ isToken r r (if again then (r : ℤ) + numProgs else r) := by
      rw [isToken_iff]
      cases again <;> simp only [if_true, Bool.false_eq_true, if_false] <;> omega
    have hyes : isToken r r (-1) := by simp [isToken]
    rw [hall s h r, Function.update_self, if_pos hlt, if_neg hno, if_pos hyes] at h2
    omega
  | cons u pre ih =>
    have hu := hq.range r u (by rw [hqueue]; exact List.mem_cons_self)
    by_cases hown : u = -1
    · -- the own program goes to another programmer, who sends something back
      subst hown
      obtain ⟨r', hr'⟩ : ∃ r' : Proger, r' ≠ r := exists_ne r
      have hb : branch r (-1) (.reviewer r') = some (some (r', (r : ℤ))) := by simp [branch, hr']
      have h' := reachable_turn h hq hpos hqueue hb
      have hq' : Quiet limit (turn limit s r (pre ++ x :: post) r' r) := hq.turn hqueue (by omega)
      have h1 := hall _ h' r
      have h2 := tokens_turn hq hqueue r' r r
      have hyes : isToken r r (-1) := by simp [isToken]
      rw [hall s h r, h1, if_pos hyes, Function.update_of_ne hr'] at h2
      have hlt : (s.queues r').length < limit := by
        by_contra hge
        rw [if_neg hge] at h2; omega
      have hqueue' : (turn limit s r (pre ++ x :: post) r' r).queues r' = s.queues r' ++ (r : ℤ) :: [] := by
        simp [turn, Function.update_of_ne hr', push, hlt]
      obtain ⟨s'', l, h'', hq'', hpos'', hs''⟩ :=
        exists_post h' hq' hr'.symm hqueue' (by simp [turn])
      have hqueue'' : s''.queues r = pre ++ x :: (post ++ l) := by
        rw [hs'']
        simp [turn, Function.update_of_ne hr'.symm]
      exact ih h'' hq'' hqueue'' hpos''
    · obtain ⟨s', sent, h', hq', hpos', hs'⟩ := exists_reject h hq (by omega) hqueue hpos
      have hqueue' : s'.queues r = pre ++ x :: (post ++ [sent]) := by
        rw [hs', Function.update_self]; simp
      exact ih h' hq' hqueue' hpos'

end

/-! ## Counting -/

/-- A task that is not a programmer's own program is the program of exactly one. -/
theorem exists_owner {r : Proger} {t : ℤ} (h : -1 ≤ t ∧ t < 2 * numProgs)
    (hno : ∀ again : Bool, t ≠ if again then (r : ℤ) + numProgs else r) :
    ∃ q₀, ∀ q, isToken q r t ↔ q = q₀ := by
  have hn : numProgs = 3 := rfl
  have hr := r.lt
  have h1 := hno false
  have h2 := hno true
  simp only [Bool.false_eq_true, if_false, if_true] at h1 h2
  obtain ⟨v, hv, hiff⟩ : ∃ v, v < 3 ∧ ∀ q : Proger, isToken q r t ↔ q.val = v := by
    by_cases hown : t = -1
    · refine ⟨r, hr, fun q => ?_⟩
      rw [isToken_iff]; have := q.lt; omega
    · by_cases h3 : t < 3
      · refine ⟨t.toNat, by omega, fun q => ?_⟩
        rw [isToken_iff]; have := q.lt; omega
      · refine ⟨(t - 3).toNat, by omega, fun q => ?_⟩
        rw [isToken_iff]; have := q.lt; omega
  exact ⟨⟨v, hv⟩, fun q => by rw [hiff, Fin.ext_iff]⟩

/-- Without such programs the messages of a queue are counted by their owners. -/
theorem length_eq_sum {r : Proger} {l : List ℤ} (h : ∀ t ∈ l, -1 ≤ t ∧ t < 2 * numProgs)
    (hno : ∀ t ∈ l, ∀ again : Bool, t ≠ if again then (r : ℤ) + numProgs else r) :
    l.length = ∑ q, l.countP (isToken q r) := by
  induction l with
  | nil => simp
  | cons t l ih =>
    obtain ⟨q₀, hq₀⟩ := exists_owner (h t List.mem_cons_self) (hno t List.mem_cons_self)
    simp only [List.countP_cons, Finset.sum_add_distrib, hq₀, Finset.sum_ite_eq', Finset.mem_univ, if_true,
      List.length_cons]
    rw [ih (fun t ht => h t (List.mem_cons_of_mem _ ht)) fun t ht => hno t (List.mem_cons_of_mem _ ht)]

/-- **The programs are conserved iff no message was left behind.**  The earlier run
    has left tasks from -1 to 5 in the three queues, each of them for `limit`
    messages, four at least. -/
theorem conserved_iff (hlimit : numProgs < limit) {k : Keys} (hlen : ∀ p, (k.left p).length ≤ limit)
    (hrange : ∀ p, ∀ t ∈ k.left p, -1 ≤ t ∧ t ≤ 5) :
    (∀ s, (system (calls limit) (initializer limit k)).Reachable s → ∀ q, tokens s q = 1) ↔
      ∀ p, k.left p = [] := by
  have hn : numProgs = 3 := rfl
  refine ⟨fun hall => ?_, fun hk s h => tokens_of_empty (by omega) hk h⟩
  have h₀ : (system (calls limit) (initializer limit k)).Reachable (initializer limit k) := .init rfl
  have hsum := fun q => hall _ h₀ q
  have hq : Quiet limit (initializer limit k) := by
    rw [initializer_eq]
    refine ⟨fun _ => rfl, fun p => length_push _ (hlen p), fun p t ht => ?_⟩
    rcases mem_push ht with ht | rfl
    · have := hrange p t ht; omega
    · omega
  -- no programmer has an own program to review
  have hno : ∀ p, ∀ t ∈ push limit (k.left p) (-1), ∀ again : Bool, t ≠ if again then (p : ℤ) + numProgs else p := by
    intro p t ht again heq
    obtain ⟨pre, post, hsplit⟩ := List.append_of_mem ht
    have hqueue : (initializer limit k).queues p = pre ++ t :: post := by
      rw [initializer_eq]; exact hsplit
    refine not_conserved_of_mem hall h₀ hq ⟨again, heq⟩ hqueue ?_
    rw [initializer_eq]; exact Nat.one_pos
  -- so there are three messages in all
  have htotal : ∑ p, (push limit (k.left p) (-1)).length = 3 := by
    have hr : ∀ p, ∀ t ∈ push limit (k.left p) (-1), -1 ≤ t ∧ t < 2 * numProgs := by
      have := hq.range
      rwa [initializer_eq] at this
    rw [Finset.sum_congr rfl fun p _ => length_eq_sum (hr p) (hno p), Finset.sum_comm]
    have : ∀ q, ∑ p, (push limit (k.left p) (-1)).countP (isToken q p) = 1 := by
      intro q
      have := hsum q
      simpa [tokens, tasks, initializer_eq, Pc.hand] using this
    simp [this, hn]
  have hroom : ∀ p, (k.left p).length < limit := by
    intro p
    by_contra hge
    have h1 := Finset.single_le_sum (f := fun p => (push limit (k.left p) (-1)).length)
      (fun _ _ => Nat.zero_le _) (Finset.mem_univ p)
    simp only [push, if_neg hge] at h1 htotal
    omega
  have hlength : ∑ p, (k.left p).length = 0 := by
    simp only [push, hroom, if_true, List.length_append, List.length_singleton,
      Finset.sum_add_distrib] at htotal
    simpa [hn] using htotal
  intro p
  exact List.eq_nil_of_length_eq_zero ((Finset.sum_eq_zero_iff.1 hlength) p (Finset.mem_univ p))

/-- A re-review of the program of programmer 1, left in the queue of programmer 0. -/
def reReview : Keys where
  sems _ := some 1
  queues p := some (if p = 0 then [4] else [])

theorem reReview_left : (∀ p, (reReview.left p).length ≤ 4096) ∧ ∀ p, ∀ t ∈ reReview.left p, -1 ≤ t ∧ t ≤ 5 := by
  decide

/-- With queues for 4096 messages: programmer 1 has two programs from the start. -/
theorem not_conserved : ¬ ∀ k : Keys, (∀ p, (k.left p).length ≤ 4096) →
    (∀ p, ∀ t ∈ k.left p, -1 ≤ t ∧ t ≤ 5) →
      ∀ s, (system (calls 4096) (initializer 4096 k)).Reachable s → ∀ q, tokens s q = 1 := by
  intro h
  have h1 := h reReview reReview_left.1 reReview_left.2 _ (.init rfl) 1
  rw [initializer_eq] at h1
  exact absurd h1 (by decide)

theorem conserved_iff_reReview :
    (∀ s, (system (calls 4096) (initializer 4096 reReview)).Reachable s → ∀ q, tokens s q = 1) ↔
      ∀ p, reReview.left p = [] :=
  conserved_iff (by decide) reReview_left.1 reReview_left.2

end Programmers.Queues.SysV
