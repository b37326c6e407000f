/-
  The discipline of `waiters_mutex` (IDZ4, both versions): it holds exactly as long as
  the administrator has not left its loop.
-/
import OsCourse.Hotel.Threads

namespace Hotel

open Transition System Locks

variable {n : ℕ} {v : Version} {clients : Fin n → Client}

/-! ## Which lock is held where -/

def AdminPc.holds : AdminPc → Option Lock
  | .printDay | .unlockCout => some .cout
  | .test | .front | .breakUnlock | .popped _ => some .waiters
  | .take _ | .unlockRoom _ => some .room
  | _ => none

def ClientPc.holds : ClientPc → Option Lock
  | .push | .unlock => some .waiters
  | _ => none

def LivePc.holds : LivePc → Option Lock
  | .printIn | .unlockIn | .printOut | .unlockOut => some .cout
  | .give | .unlockRoom => some .room
  | _ => none

/-- The lock that a thread is to hold. -/
def held (d : Data n) : Thread n → Option Lock
  | .admin => d.admin.holds
  | .client i => (d.clients i).holds
  | .live j => (d.lives[j]?).bind fun l => l.pc.holds

/-! ## The property -/

/-- The thread is at a request for the lock. -/
def Requests (v : Version) (clients : Fin n → Client) (d : Data n) (t : Thread n) (l : Lock) : Prop :=
  ∃ d', next v clients d t = some (.acquire l, d')

/-- The thread sleeps, or is finished. -/
def Rests (d : Data n) : Thread n → Prop
  | .admin => d.admin = .sleep ∨ d.admin = .finished
  | .client i => d.clients i = .sleep ∨ d.clients i = .finished
  | .live j => ∃ l, d.lives[j]? = some l ∧ (l.pc = .sleep ∨ l.pc = .finished)

/-- Nobody requests `waiters_mutex` that holds it, nobody sleeps or finishes that holds it,
    and until the administrator has finished, somebody can go on. -/
structure Orderly (v : Version) (clients : Fin n → Client) (s : State n) : Prop where
  request : ∀ t, Requests v clients s.data t .waiters → s.holder .waiters ≠ some t
  rest : ∀ t, Rests s.data t → s.holder .waiters ≠ some t
  alive : s.data.admin ≠ .finished → ∃ t, (Locks.step (next v clients) s t).isSome

/-- The administrator leaves its loop; or, with rwlocks, it gets to the second `wrlock`. -/
def Leaves (v : Version) (s : State n) (t : Thread n) : Prop :=
  t = .admin ∧
    ((s.data.admin = .test ∧ ¬ (s.data.waiters ≠ [] ∧ s.data.roomsNumber > 0)) ∨
      (v = .rwlocks ∧ s.data.admin = .front ∧ s.data.waiters ≠ []))

/-! ## The steps -/

/-- The administrator has not got to the second `wrlock`. -/
def Before (v : Version) (d : Data n) : Prop := v = .rwlocks → ∀ c, d.admin ≠ .popped c

variable {d d' : Data n} {op : Op Lock} {t : Thread n}

theorem held_of_admin (hc : d'.clients = d.clients) (hl : d'.lives = d.lives) :
    ∀ t, t ≠ .admin → held d' t = held d t := by
  intro t ht
  cases t with
  | admin => exact absurd rfl ht
  | client i => simp only [held, hc]
  | live j => simp only [held, hl]

/-- A living client that has just been started holds nothing. -/
theorem held_of_start {l : Live} (hc : d'.clients = d.clients) (hl : d'.lives = d.lives ++ [l])
    (hpc : l.pc = .lockIn) : ∀ t, t ≠ .admin → held d' t = held d t := by
  intro t ht
  cases t with
  | admin => exact absurd rfl ht
  | client i => simp only [held, hc]
  | live j =>
    simp only [held, hl]
    rcases Nat.lt_trichotomy j d.lives.length with hj | rfl | hj
    · rw [List.getElem?_append_left hj]
    · simp [hpc, LivePc.holds]
    · rw [List.getElem?_eq_none (by simp; omega), List.getElem?_eq_none (by omega)]

theorem held_of_client {i : Fin n} {pc : ClientPc} (ha : d'.admin = d.admin)
    (hc : d'.clients = Function.update d.clients i pc) (hl : d'.lives = d.lives) :
    ∀ t, t ≠ .client i → held d' t = held d t := by
  intro t ht
  cases t with
  | admin => simp only [held, ha]
  | client i' =>
    have hne : i' ≠ i := fun h => ht (h ▸ rfl)
    simp only [held, hc, Function.update_of_ne hne]
  | live j => simp only [held, hl]

theorem held_of_live {j : ℕ} {l : Live} (ha : d'.admin = d.admin) (hc : d'.clients = d.clients)
    (hl : d'.lives = d.lives.set j l) : ∀ t, t ≠ .live j → held d' t = held d t := by
  intro t ht
  cases t with
  | admin => simp only [held, ha]
  | client i => simp only [held, hc]
  | live j' =>
    have hne : j ≠ j' := fun h => ht (h ▸ rfl)
    simp only [held, hl, List.getElem?_set_ne hne]

/-- The administrator keeps the discipline, unless it leaves its loop. -/
theorem fits_admin (hb : Before v d) (hl : ∀ h, ¬ Leaves v { data := d, holder := h } (.admin : Thread n))
    (hr : nextAdmin v d = some (op, d')) : Fits held d .admin (op, d') ∧ Before v d' := by
  have hleaves := hl fun _ => none
  cases hpc : d.admin with
  | test =>
    simp only [nextAdmin, hpc] at hr
    split_ifs at hr with hc
    · cases hr
      exact ⟨⟨by simp [held, hpc, AdminPc.holds], held_of_admin rfl rfl⟩, fun _ _ => by simp⟩
    · exact absurd ⟨rfl, .inl ⟨hpc, hc⟩⟩ hleaves
  | front =>
    simp only [nextAdmin, hpc] at hr
    cases hw : d.waiters with
    | nil =>
      rw [hw] at hr
      cases hr
      exact ⟨⟨by simp [held, hpc, AdminPc.holds], held_of_admin rfl rfl⟩, fun _ _ => by simp⟩
    | cons c rest =>
      rw [hw] at hr
      cases hr
      refine ⟨⟨by simp [held, hpc, AdminPc.holds], held_of_admin rfl rfl⟩, fun hv _ => ?_⟩
      exact absurd ⟨rfl, .inr ⟨hv, hpc, by rw [hw]; simp⟩⟩ hleaves
  | popped c =>
    simp only [nextAdmin, hpc] at hr
    cases v with
    | mutexes =>
      cases hr
      exact ⟨⟨by simp [held, hpc, AdminPc.holds], held_of_admin rfl rfl⟩, fun _ _ => by simp⟩
    | rwlocks => exact absurd hpc (hb rfl c)
  | start c =>
    simp only [nextAdmin, hpc] at hr
    cases hr
    exact ⟨⟨by simp [held, hpc, AdminPc.holds], held_of_start rfl rfl rfl⟩, fun _ _ => by simp⟩
  | sleep =>
    simp only [nextAdmin, hpc] at hr
    split_ifs at hr <;> cases hr <;>
      exact ⟨⟨by simp [held, hpc, AdminPc.holds], held_of_admin rfl rfl⟩, fun _ _ => by simp⟩
  | finished =>
    simp only [nextAdmin, hpc] at hr
    cases hr
  | _ =>
    simp only [nextAdmin, hpc] at hr
    cases hr
    exact ⟨⟨by simp [held, hpc, AdminPc.holds], held_of_admin rfl rfl⟩, fun _ _ => by simp⟩

theorem fits_client {c : Client} {i : Fin n} (hr : nextClient c d i = some (op, d')) :
    Fits held d (.client i) (op, d') ∧ d'.admin = d.admin := by
  cases hpc : d.clients i with
  | finished =>
    simp only [nextClient, hpc] at hr
    cases hr
  | _ =>
    simp only [nextClient, hpc] at hr
    cases hr
    exact ⟨⟨by simp [held, hpc, ClientPc.holds], held_of_client rfl rfl rfl⟩, rfl⟩

theorem fits_live {l : Live} {j : ℕ} (hj : d.lives[j]? = some l) (hr : nextLive l d j = some (op, d')) :
    Fits held d (.live j) (op, d') ∧ d'.admin = d.admin := by
  obtain ⟨hlt, rfl⟩ := List.getElem?_eq_some_iff.1 hj
  cases hpc : d.lives[j].pc with
  | finished =>
    simp only [nextLive, hpc] at hr
    cases hr
  | _ =>
    simp only [nextLive, hpc] at hr
    cases hr
    exact ⟨⟨by simp [held, hlt, hpc, LivePc.holds], held_of_live rfl rfl rfl⟩, rfl⟩

/-- **All threads keep the discipline**, unless the administrator leaves its loop. -/
theorem fits_next (hb : Before v d) (hl : ∀ h, ¬ Leaves v { data := d, holder := h } t)
    (hr : next v clients d t = some (op, d')) : Fits held d t (op, d') ∧ Before v d' := by
  cases t with
  | admin => exact fits_admin hb hl hr
  | client i =>
    obtain ⟨hfit, ha⟩ := fits_client hr
    exact ⟨hfit, fun hv c => by rw [ha]; exact hb hv c⟩
  | live j =>
    obtain ⟨l, hj, hr⟩ := Option.bind_eq_some_iff.1 hr
    obtain ⟨hfit, ha⟩ := fits_live hj hr
    exact ⟨hfit, fun hv c => by rw [ha]; exact hb hv c⟩

/-- Who requests a lock holds none. -/
theorem oneAtATime (hb : Before v d) : OneAtATime (next v clients) held d := by
  intro t l d' hr
  by_cases hl : ∃ h, Leaves v { data := d, holder := h } t
  · -- the administrator requests nothing there
    obtain ⟨h, rfl, ⟨hpc, -⟩ | ⟨-, hpc, -⟩⟩ := hl
    · simp only [next, nextAdmin, show d.admin = .test from hpc] at hr
      split_ifs at hr <;> cases hr
    · simp only [next, nextAdmin, show d.admin = .front from hpc] at hr
      split at hr <;> cases hr
  · exact (fits_next hb (not_exists.1 hl) hr).1.own.1

theorem nextAdmin_ne_none (h : d.admin ≠ .finished) : nextAdmin v d ≠ none := by
  cases hpc : d.admin with
  | finished => exact absurd hpc h
  | test | sleep =>
    simp only [nextAdmin, hpc]
    split_ifs <;> simp
  | front =>
    simp only [nextAdmin, hpc]
    split <;> simp
  | popped c =>
    simp only [nextAdmin, hpc]
    cases v <;> simp
  | _ => simp [nextAdmin, hpc]

/-- Who holds a lock has not come to its end. -/
theorem next_ne_none {l : Lock} (h : held d t = some l) : next v clients d t ≠ none := by
  cases t with
  | admin =>
    refine nextAdmin_ne_none fun hpc => ?_
    simp only [held, hpc, AdminPc.holds] at h
    cases h
  | client i =>
    show nextClient (clients i) d i ≠ none
    cases hpc : d.clients i with
    | finished =>
      simp only [held, hpc, ClientPc.holds] at h
      cases h
    | _ => simp [nextClient, hpc]
  | live j =>
    obtain ⟨a, hj, h⟩ := Option.bind_eq_some_iff.1 h
    show (d.lives[j]?).bind (fun l => nextLive l d j) ≠ none
    rw [hj, Option.bind_some]
    cases hpc : a.pc with
    | finished =>
      simp only [hpc, LivePc.holds] at h
      cases h
    | _ => simp [nextLive, hpc]

theorem held_of_rests (h : Rests d t) : held d t = none := by
  cases t with
  | admin => rcases h with h | h <;> simp [held, h, AdminPc.holds]
  | client i => rcases h with h | h <;> simp [held, h, ClientPc.holds]
  | live j =>
    obtain ⟨l, hj, h | h⟩ := h
    · simp [held, hj, h, LivePc.holds]
    · simp [held, hj, h, LivePc.holds]

/-! ## The runs -/

variable {s s' : State n} {tr : List (State n × Thread n)}

/-- The invariant of the steps in which the administrator does not leave its loop. -/
def Inv (v : Version) (s : State n) : Prop := Agrees held s ∧ Before v s.data

theorem inv_inductive :
    ((threads v clients).restrict fun s t => ¬ Leaves v s t).Inductive (Inv v) := by
  refine ⟨?_, fun s t s' hi hs => ?_⟩
  · rintro s rfl
    refine ⟨fun l t => ⟨fun h => (by cases h), fun h => ?_⟩, fun _ _ => by simp [initial, initialData]⟩
    cases t <;> simp [initial, initialData, held, AdminPc.holds, ClientPc.holds] at h
  · obtain ⟨hs, hl⟩ := hs
    obtain ⟨hagree, hb⟩ := hi
    -- who leaves is seen from the data
    have hl : ∀ h, ¬ Leaves v { data := s.data, holder := h } t := fun _ => hl
    refine ⟨hagree.step (fun r hr => (fits_next hb hl hr).1) hs, ?_⟩
    obtain ⟨⟨op, d⟩, hr, hs⟩ := Option.bind_eq_some_iff.1 (show Locks.step (next v clients) s t = some s' from hs)
    have hd : s'.data = d := by
      cases op <;> simp only at hs
      · split_ifs at hs
        cases hs; rfl
      · cases hs; rfl
      · cases hs; rfl
    rw [hd]
    exact (fits_next hb hl hr).2

theorem Inv.orderly (h : Inv v s) : Orderly v clients s := by
  obtain ⟨hagree, hb⟩ := h
  refine ⟨fun t ⟨d', hr⟩ => hagree.request (oneAtATime hb) hr, fun t hr hheld => ?_, fun hend => ?_⟩
  · have := (hagree .waiters t).1 hheld
    rw [held_of_rests hr] at this
    cases this
  · have hnext : next v clients s.data .admin ≠ none := nextAdmin_ne_none hend
    exact hagree.exists_step (oneAtATime hb) (fun t l hl => next_ne_none hl) hnext

/-- Who leaves the loop sleeps with the lock, or requests it once more. -/
theorem not_orderly_of_leaves (h : Inv v s) (hs : (threads v clients).step s t s') (hl : Leaves v s t) :
    ¬ Orderly v clients s' := by
  intro ho
  replace hs : Locks.step (next v clients) s t = some s' := hs
  obtain ⟨rfl, ⟨hpc, hc⟩ | ⟨rfl, hpc, hw⟩⟩ := hl
  · have hheld : s.holder .waiters = some .admin := (h.1 _ _).2 (by simp [held, hpc, AdminPc.holds])
    simp only [Locks.step, next, nextAdmin, hpc, if_neg hc, Option.bind_some, Option.some.injEq] at hs
    subst hs
    exact ho.rest .admin (.inl rfl) hheld
  · have hheld : s.holder .waiters = some .admin := (h.1 _ _).2 (by simp [held, hpc, AdminPc.holds])
    obtain ⟨c, rest, hw⟩ := List.exists_cons_of_ne_nil hw
    simp only [Locks.step, next, nextAdmin, hpc, hw, Option.bind_some, Option.some.injEq] at hs
    subst hs
    exact ho.request .admin ⟨_, rfl⟩ hheld

/-- **How long the discipline holds.**  All along a run nobody requests `waiters_mutex`
    twice, rests with it, or is stuck for ever, iff in this run the administrator does not
    leave its loop, nor, with rwlocks, take a client: behind the loop nobody unlocks. -/
theorem orderly_iff (v : Version) (clients : Fin n → Client) (h : (threads v clients).Exec tr s) :
    Always (Orderly v clients) tr s ↔ ∀ x ∈ tr, ¬ Leaves v x.1 x.2 :=
  Exec.always_iff inv_inductive (fun _ => Inv.orderly)
    (fun _ _ _ hi hs hl => not_orderly_of_leaves hi hs (not_not.1 hl)) h

/-- One client, who comes on day 1 and stays for two days. -/
def single : Fin 1 → Client := fun _ => { id := 0, checkin := 1, during := 2 }

/-- The first day of the administrator and the beginning of the second one, and the
    arrival of the client. -/
def stuck : List (Thread 1) := List.replicate 9 .admin ++ [.client 0]

/-- The administrator waits for the lock that it holds, and the client for the
    administrator. -/
theorem not_orderly : ¬ ∀ (v : Version) (n : ℕ) (clients : Fin n → Client) (s : State n),
    (threads v clients).Reachable s → Orderly v clients s := by
  intro hall
  obtain ⟨s, -, he, hp⟩ := exec_of_any initial (Locks.step (next .mutexes single)) stuck
    (fun s => s.data.admin == .lockWaiters && s.data.clients 0 == .lock && s.data.lives == [] &&
      s.holder .waiters == some .admin) (by decide +kernel)
  simp only [Bool.and_eq_true, beq_iff_eq] at hp
  obtain ⟨⟨⟨hadmin, hclient⟩, hlives⟩, hheld⟩ := hp
  obtain ⟨t, ht⟩ := (hall .mutexes 1 single s ⟨_, he⟩).alive (by rw [hadmin]; simp)
  cases t with
  | admin => simp [Locks.step, next, nextAdmin, hadmin, hheld] at ht
  | client i =>
    obtain rfl : i = 0 := Subsingleton.elim _ _
    simp [Locks.step, next, nextClient, hclient, hheld] at ht
  | live j => simp [Locks.step, next, hlives] at ht

theorem orderly_iff_stuck : ∃ tr s, (threads .mutexes single).Exec tr s ∧ tr.length = 10 ∧
    (Always (Orderly .mutexes single) tr s ↔ ∀ x ∈ tr, ¬ Leaves .mutexes x.1 x.2) := by
  obtain ⟨s, -, he, -⟩ := exec_of_any initial (Locks.step (next .mutexes single)) stuck
    (fun s => s.data.admin == .lockWaiters) (by decide +kernel)
  exact ⟨_, s, he, rfl, orderly_iff .mutexes single he⟩

end Hotel
