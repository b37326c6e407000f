/-
  The hotel (IDZ4/mutexes) with the statements between a lock and its unlock as one step,
  and without the lock that the administrator keeps behind its loop: how many rooms are
  taken, and in which order the clients are served.
-/
import OsCourse.Hotel.Threads
import OsCourse.Lib.Traces

namespace Hotel.Sections

open Transition System

/-- Where `Administration::run` is. -/
inductive AdminPc where
  /-- before the line of the day -/
  | day
  /-- before the test of the loop -/
  | test
  /-- the client `c` has been popped; before `--rooms_number` -/
  | popped (c : Client)
  /-- before `live->start()` -/
  | start (c : Client)
  /-- in `sleep(1)` -/
  | sleep
  | finished
  deriving DecidableEq

/-- Where `Client::run` is. -/
inductive ClientPc where
  /-- in `sleep(checkin_time)` -/
  | sleep
  | push
  | finished
  deriving DecidableEq

/-- Where `Client_live::run` is. -/
inductive LivePc where
  /-- before the check-in line -/
  | checkIn
  /-- in `sleep(args.during)` -/
  | sleep
  /-- before `++args.room_number` -/
  | give
  /-- before the leave line -/
  | leave
  | finished
  deriving DecidableEq

/-- A living client, with `live_args`. -/
structure Live where
  id : ℤ
  during : ℤ
  curTime : ℕ
  pc : LivePc
  deriving DecidableEq

variable {n : ℕ}

structure State (n : ℕ) where
  curTime : ℕ
  admin : AdminPc
  clients : Fin n → ClientPc
  lives : List Live
  /-- the queue `waiters` -/
  waiters : List Client
  roomsNumber : ℤ
  file : List Line

def initial : State n :=
  { curTime := 0, admin := .day, clients := fun _ => .sleep, lives := [], waiters := [],
    roomsNumber := roomsCount, file := [] }

/-- The next step of the administrator. -/
def stepAdmin (s : State n) : Option (State n) :=
  match s.admin with
  | .day => some { s with admin := .test, file := s.file ++ [.day s.curTime] }
  | .test =>
    if s.waiters ≠ [] ∧ s.roomsNumber > 0 then
      match s.waiters with
      | [] => some { s with admin := .sleep }
      | c :: waiters => some { s with admin := .popped c, waiters := waiters }
    else some { s with admin := .sleep }
  | .popped c => some { s with admin := .start c, roomsNumber := s.roomsNumber - 1 }
  | .start c =>
    some { s with
      admin := .test
      lives := s.lives ++ [{ id := c.id, during := c.during, curTime := s.curTime, pc := .checkIn }] }
  | .sleep =>
    if s.curTime + 1 < dayCount then some { s with curTime := s.curTime + 1, admin := .day }
    else some { s with curTime := s.curTime + 1, admin := .finished }
  | .finished => none

/-- The next step of the client `c`, thread `i`. -/
def stepClient (c : Client) (s : State n) (i : Fin n) : Option (State n) :=
  match s.clients i with
  | .sleep => some { s with clients := Function.update s.clients i .push }
  | .push => some { s with clients := Function.update s.clients i .finished, waiters := s.waiters ++ [c] }
  | .finished => none

/-- The next step of the living client `l`, thread `j`. -/
def stepLive (l : Live) (s : State n) (j : ℕ) : Option (State n) :=
  let go (pc : LivePc) : State n := { s with lives := s.lives.set j { l with pc := pc } }
  match l.pc with
  | .checkIn => some { go .sleep with file := s.file ++ [.checkIn l.id l.during] }
  | .sleep => some (go .give)
  | .give => some { go .leave with roomsNumber := s.roomsNumber + 1 }
  | .leave => some { go .finished with file := s.file ++ [.leave l.id] }
  | .finished => none

def step (clients : Fin n → Client) (s : State n) : Thread n → Option (State n)
  | .admin => stepAdmin s
  | .client i => stepClient (clients i) s i
  | .live j => (s.lives[j]?).bind fun l => stepLive l s j

/-- The threads under any schedule; a `sleep` can last for any time. -/
def system (clients : Fin n → Client) : System (State n) (Thread n) := ofFn initial (step clients)

/-! ## The rooms -/

/-- The room of the living client has not been given back. -/
def LivePc.hasRoom : LivePc → Bool
  | .checkIn | .sleep | .give => true
  | .leave | .finished => false

/-- The administrator has taken a room for a client that has not been started. -/
def AdminPc.hasRoom : AdminPc → Bool
  | .start _ => true
  | _ => false

/-- How many clients have a room: `--rooms_number` has been executed for them, and
    `++args.room_number` has not. -/
def taken (s : State n) : ℕ := s.admin.hasRoom.toNat + s.lives.countP fun l => l.pc.hasRoom

/-- The invariant of the rooms: what the administrator has seen in its test can only have
    grown when it takes a room. -/
structure Rooms (s : State n) : Prop where
  total : s.roomsNumber + taken s = roomsCount
  nonneg : 0 ≤ s.roomsNumber
  popped : ∀ c, s.admin = .popped c → 0 < s.roomsNumber

variable {clients : Fin n → Client} {s s' : State n} {t : Thread n}

/-- The rooms of the living clients, when one of them goes on. -/
theorem countP_set {lives : List Live} {j : ℕ} {l : Live} (hj : lives[j]? = some l) (pc : LivePc) :
    (lives.set j { l with pc := pc }).countP (fun l => l.pc.hasRoom) + l.pc.hasRoom.toNat =
      lives.countP (fun l => l.pc.hasRoom) + pc.hasRoom.toNat := by
  induction lives generalizing j with
  | nil => simp at hj
  | cons l' lives ih =>
    cases j with
    | zero =>
      obtain rfl : l' = l := by simpa using hj
      rw [List.set_cons_zero, List.countP_cons, List.countP_cons]
      cases l'.pc.hasRoom <;> cases pc.hasRoom <;> simp
    | succ j =>
      have := ih (j := j) (by simpa using hj)
      rw [List.set_cons_succ, List.countP_cons, List.countP_cons]
      omega

/-- What a step of the administrator can be. -/
inductive AdminStep (s : State n) : State n → Prop
  | day (hpc : s.admin = .day) : AdminStep s { s with admin := .test, file := s.file ++ [.day s.curTime] }
  | pop {c : Client} {waiters : List Client} (hpc : s.admin = .test) (hwaiters : s.waiters = c :: waiters)
      (hrooms : 0 < s.roomsNumber) : AdminStep s { s with admin := .popped c, waiters := waiters }
  | wait (hpc : s.admin = .test) (hrooms : 0 < s.roomsNumber → s.waiters = []) :
      AdminStep s { s with admin := .sleep }
  | take {c : Client} (hpc : s.admin = .popped c) :
      AdminStep s { s with admin := .start c, roomsNumber := s.roomsNumber - 1 }
  | start {c : Client} (hpc : s.admin = .start c) : AdminStep s { s with
      admin := .test
      lives := s.lives ++ [{ id := c.id, during := c.during, curTime := s.curTime, pc := .checkIn }] }
  | wake (hpc : s.admin = .sleep) : AdminStep s { s with curTime := s.curTime + 1, admin := .day }
  | finish (hpc : s.admin = .sleep) : AdminStep s { s with curTime := s.curTime + 1, admin := .finished }

theorem adminStep_of_stepAdmin (hs : stepAdmin s = some s') : AdminStep s s' := by
  cases hpc : s.admin with
  | day =>
    simp only [stepAdmin, hpc] at hs
    cases hs
    exact .day hpc
  | test =>
    simp only [stepAdmin, hpc] at hs
    split_ifs at hs with hc
    · obtain ⟨c, waiters, hw⟩ := List.exists_cons_of_ne_nil hc.1
      rw [hw] at hs
      cases hs
      exact .pop hpc hw hc.2
    · cases hs
      refine .wait hpc fun hpos => ?_
      by_contra hne
      exact hc ⟨hne, hpos⟩
  | popped c =>
    simp only [stepAdmin, hpc] at hs
    cases hs
    exact .take hpc
  | start c =>
    simp only [stepAdmin, hpc] at hs
    cases hs
    exact .start hpc
  | sleep =>
    simp only [stepAdmin, hpc] at hs
    split_ifs at hs <;> cases hs
    · exact .wake hpc
    · exact .finish hpc
  | finished =>
    simp only [stepAdmin, hpc] at hs
    cases hs

/-- The administrator goes on, and no room is taken or given back. -/
theorem Rooms.setAdmin (h : Rooms s) (hrooms : s'.roomsNumber = s.roomsNumber) (hlives : s'.lives = s.lives)
    (hadmin : s'.admin.hasRoom = s.admin.hasRoom) (hpopped : ∀ c, s'.admin = .popped c → 0 < s.roomsNumber) :
    Rooms s' := by
  obtain ⟨htotal, hnonneg, -⟩ := h
  refine ⟨?_, ?_, ?_⟩
  · rw [hrooms, taken, hlives, hadmin]
    exact htotal
  · rwa [hrooms]
  · rwa [hrooms]

/-- The administrator: only it takes rooms. -/
theorem Rooms.stepAdmin (h : Rooms s) (hs : stepAdmin s = some s') : Rooms s' := by
  cases adminStep_of_stepAdmin hs with
  | day hpc | wait hpc | wake hpc | finish hpc =>
    exact h.setAdmin rfl rfl (by rw [hpc]; rfl) fun _ hc => by cases hc
  | pop hpc _ hrooms => exact h.setAdmin rfl rfl (by rw [hpc]; rfl) fun _ _ => hrooms
  | @take c hpc =>
    have htotal := h.total
    have hpos := h.popped c hpc
    refine ⟨?_, ?_, fun _ hc => by cases hc⟩
    · simp only [taken, hpc, AdminPc.hasRoom, Bool.toNat_false, Bool.toNat_true] at htotal ⊢
      omega
    · show 0 ≤ s.roomsNumber - 1
      omega
  | start hpc =>
    have htotal := h.total
    refine ⟨?_, h.nonneg, fun _ hc => by cases hc⟩
    simp only [taken, hpc, AdminPc.hasRoom, Bool.toNat_false, Bool.toNat_true, List.countP_append,
      List.countP_singleton, LivePc.hasRoom, if_true] at htotal ⊢
    omega

/-- A living client goes on, and gives back the room that it had, if it has none then. -/
theorem Rooms.setLive (h : Rooms s) {j : ℕ} {l : Live} (hj : s.lives[j]? = some l) (pc : LivePc)
    (hlives : s'.lives = s.lives.set j { l with pc := pc }) (hadmin : s'.admin = s.admin)
    (hrooms : s'.roomsNumber + pc.hasRoom.toNat = s.roomsNumber + l.pc.hasRoom.toNat)
    (hle : s.roomsNumber ≤ s'.roomsNumber) : Rooms s' := by
  have hcount := countP_set hj pc
  have htotal := h.total
  refine ⟨?_, Int.le_trans h.nonneg hle, fun c hc => ?_⟩
  · simp only [taken, hlives, hadmin] at htotal ⊢
    omega
  · exact Int.lt_of_lt_of_le (h.popped c (hadmin ▸ hc)) hle

theorem Rooms.stepLive (h : Rooms s) {j : ℕ} {l : Live} (hj : s.lives[j]? = some l)
    (hs : stepLive l s j = some s') : Rooms s' := by
  cases hpc : l.pc with
  | checkIn =>
    simp only [Sections.stepLive, hpc] at hs
    cases hs
    exact h.setLive hj .sleep rfl rfl (by rw [hpc]; rfl) (Int.le_refl _)
  | sleep =>
    simp only [Sections.stepLive, hpc] at hs
    cases hs
    exact h.setLive hj .give rfl rfl (by rw [hpc]; rfl) (Int.le_refl _)
  | give =>
    simp only [Sections.stepLive, hpc] at hs
    cases hs
    refine h.setLive hj .leave rfl rfl ?_ ?_
    · rw [hpc]
      show s.roomsNumber + 1 + 0 = s.roomsNumber + 1
      omega
    · show s.roomsNumber ≤ s.roomsNumber + 1
      omega
  | leave =>
    simp only [Sections.stepLive, hpc] at hs
    cases hs
    exact h.setLive hj .finished rfl rfl (by rw [hpc]; rfl) (Int.le_refl _)
  | finished =>
    simp only [Sections.stepLive, hpc] at hs
    cases hs

/-- **The rooms are counted right** by every step. -/
theorem rooms_inductive (clients : Fin n → Client) : (system clients).Inductive Rooms := by
  constructor
  · rintro s rfl
    exact ⟨rfl, Int.natCast_nonneg roomsCount, fun c hc => by cases hc⟩
  · intro s t s' h hs
    replace hs : step clients s t = some s' := hs
    cases t with
    | admin => exact h.stepAdmin hs
    | client i =>
      simp only [step, stepClient] at hs
      split at hs <;> cases hs
      · exact ⟨h.total, h.nonneg, h.popped⟩
      · exact ⟨h.total, h.nonneg, h.popped⟩
    | live j =>
      obtain ⟨l, hj, hs⟩ := Option.bind_eq_some_iff.1 hs
      exact h.stepLive hj hs

/-- **Never more than 30 clients have a room**, under any schedule. -/
theorem taken_le (clients : Fin n → Client) (h : (system clients).Reachable s) :
    s.roomsNumber + taken s = roomsCount ∧ 0 ≤ s.roomsNumber ∧ taken s ≤ roomsCount := by
  obtain ⟨htotal, hnonneg, -⟩ := (rooms_inductive clients).reachable h
  refine ⟨htotal, hnonneg, ?_⟩
  omega

/-- 31 clients that come on day 1 and stay for two days. -/
def guests : Fin 31 → Client := fun i => { id := i, checkin := 1, during := 2 }

/-- All of them have come, and 30 have been admitted. -/
def firstDay : List (Thread 31) :=
  (List.finRange 31).flatMap (fun i => [.client i, .client i]) ++ List.replicate 91 .admin ++ [.live 0]

theorem taken_le_full : ∃ s, (system guests).Reachable s ∧ taken s = 30 ∧ s.waiters = [guests 30] ∧
    s.roomsNumber + taken s = roomsCount ∧ 0 ≤ s.roomsNumber ∧ taken s ≤ roomsCount := by
  obtain ⟨s, -, he, hp⟩ := exec_of_any initial (step guests) firstDay
    (fun s => taken s == 30 && s.waiters == [guests 30]) (by decide +kernel)
  obtain ⟨htaken, hwaiters⟩ := Bool.and_eq_true_iff.1 hp
  exact ⟨s, ⟨_, he⟩, beq_iff_eq.1 htaken, beq_iff_eq.1 hwaiters, taken_le guests ⟨_, he⟩⟩

/-! ## First come, first served -/

/-- What a living client is started with. -/
abbrev Card := ℤ × ℤ

def card (c : Client) : Card := (c.id, c.during)

/-- The client that pushes itself in this step. -/
def pushed (s : State n) : Thread n → Option (Fin n)
  | .client i => if s.clients i = .push then some i else none
  | _ => none

/-- The client that the administrator admits in this step. -/
def popped (s : State n) : Thread n → Option Client
  | .admin => if s.admin = .test ∧ s.roomsNumber > 0 then s.waiters.head? else none
  | _ => none

/-- The client that has been popped and not been started. -/
def AdminPc.inHand : AdminPc → List Client
  | .popped c | .start c => [c]
  | _ => []

/-- The clients that have been admitted, with what the living ones know of them. -/
def served (s : State n) : List Card :=
  s.lives.map (fun l => (l.id, l.during)) ++ s.admin.inHand.map card

/-- What a step does to the order of service. -/
structure Moves (clients : Fin n → Client) (s s' : State n) (t : Thread n) : Prop where
  admission : served s' = served s ++ ((popped s t).map card).toList
  queue : served s' ++ s'.waiters.map card =
    served s ++ s.waiters.map card ++ ((pushed s t).map fun i => card (clients i)).toList
  fresh : ∀ i, pushed s t = some i → s.clients i = .push
  finished : ∀ i, s'.clients i = .finished ↔ s.clients i = .finished ∨ pushed s t = some i

/-- A step that admits nobody, and in which nobody pushes. -/
theorem Moves.quiet (hserved : served s' = served s) (hwaiters : s'.waiters = s.waiters)
    (hfinished : ∀ i, s'.clients i = .finished ↔ s.clients i = .finished)
    (hpopped : popped s t = none) (hpushed : pushed s t = none) : Moves clients s s' t := by
  refine ⟨?_, ?_, fun i hi => ?_, fun i => ?_⟩
  · rw [hserved, hpopped]
    exact (List.append_nil _).symm
  · rw [hserved, hwaiters, hpushed]
    exact (List.append_nil _).symm
  · rw [hpushed] at hi
    cases hi
  · rw [hfinished, hpushed]
    simp

theorem map_set {lives : List Live} {j : ℕ} {l : Live} (hj : lives[j]? = some l) (pc : LivePc) :
    (lives.set j { l with pc := pc }).map (fun l => (l.id, l.during)) = lives.map fun l => (l.id, l.during) := by
  rw [List.map_set]
  refine List.ext_getElem? fun k => ?_
  by_cases hk : j = k
  · subst hk
    rw [List.getElem?_set_self', List.getElem?_map, hj]
    rfl
  · rw [List.getElem?_set_ne hk]

/-- The administrator admits the first of the queue. -/
theorem moves_admin (hs : stepAdmin s = some s') : Moves clients s s' .admin := by
  cases adminStep_of_stepAdmin hs with
  | @pop c waiters hpc hwaiters hrooms =>
    have hpopped : popped s (.admin : Thread n) = some c := by
      rw [popped, if_pos ⟨hpc, hrooms⟩, hwaiters, List.head?_cons]
    refine ⟨?_, ?_, fun i hi => (by cases hi), fun i => by simp [pushed]⟩
    · rw [hpopped]
      simp [served, hpc, AdminPc.inHand]
    · simp [served, hpc, AdminPc.inHand, hwaiters, pushed]
  | wait hpc hrooms =>
    refine .quiet (by simp [served, hpc, AdminPc.inHand]) rfl (fun _ => Iff.rfl) ?_ rfl
    rw [popped]
    split_ifs with hc
    · rw [hrooms hc.2, List.head?_nil]
    · rfl
  | start hpc =>
    exact .quiet (by simp [served, hpc, AdminPc.inHand, card]) rfl (fun _ => Iff.rfl) (by simp [popped, hpc]) rfl
  | day hpc | take hpc | wake hpc | finish hpc =>
    exact .quiet (by simp [served, hpc, AdminPc.inHand]) rfl (fun _ => Iff.rfl) (by simp [popped, hpc]) rfl

/-- A client pushes itself behind the others. -/
theorem moves_client {i : Fin n} (hs : stepClient (clients i) s i = some s') : Moves clients s s' (.client i) := by
  cases hpc : s.clients i with
  | sleep =>
    simp only [stepClient, hpc] at hs
    cases hs
    refine .quiet rfl rfl (fun j => ?_) rfl (by simp [pushed, hpc])
    by_cases hj : j = i
    · subst hj
      simp [hpc]
    · simp only [Function.update_of_ne hj]
  | push =>
    simp only [stepClient, hpc] at hs
    cases hs
    have hpushed : pushed s (.client i) = some i := if_pos hpc
    refine ⟨(List.append_nil _).symm, ?_, fun j hj => ?_, fun j => ?_⟩
    · rw [hpushed]
      simp [served]
    · rw [hpushed] at hj
      cases hj
      exact hpc
    · rw [hpushed, Option.some.injEq]
      by_cases hj : j = i
      · subst hj
        simp
      · simp only [Function.update_of_ne hj, or_iff_left (Ne.symm hj)]
  | finished =>
    simp only [stepClient, hpc] at hs
    cases hs

theorem moves_live {j : ℕ} {l : Live} (hj : s.lives[j]? = some l) (hs : stepLive l s j = some s') :
    Moves clients s s' (.live j) := by
  obtain ⟨pc, hlives, hadmin, hclients, hwaiters⟩ : ∃ pc, s'.lives = s.lives.set j { l with pc := pc } ∧
      s'.admin = s.admin ∧ s'.clients = s.clients ∧ s'.waiters = s.waiters := by
    simp only [stepLive] at hs
    split at hs <;> cases hs <;> exact ⟨_, rfl, rfl, rfl, rfl⟩
  refine .quiet ?_ hwaiters (fun i => by rw [hclients]) rfl rfl
  rw [served, hlives, hadmin, map_set hj, served]

theorem moves_of_step (hs : step clients s t = some s') : Moves clients s s' t := by
  cases t with
  | admin => exact moves_admin hs
  | client i => exact moves_client hs
  | live j =>
    obtain ⟨l, hj, hs⟩ := Option.bind_eq_some_iff.1 hs
    exact moves_live hj hs

/-- **First come, first served**: those who have been admitted and those who wait are the
    clients that have pushed themselves, in that order, each once, with what they were
    created with. -/
theorem in_order (clients : Fin n → Client) {tr : List (State n × Thread n)} (h : (system clients).Exec tr s) :
    (events popped tr).map card ++ s.waiters.map card = (events pushed tr).map (fun i => card (clients i)) ∧
      served s = (events popped tr).map card ∧
      (events pushed tr).Nodup ∧ ∀ i, i ∈ events pushed tr ↔ s.clients i = .finished := by
  induction h with
  | init hi =>
    cases hi
    exact ⟨rfl, rfl, List.nodup_nil, fun i => by simp [initial]⟩
  | @snoc tr s t s' _ hs ih =>
    obtain ⟨hqueue, hserved, hnodup, hfinished⟩ := ih
    have hm : Moves clients s s' t := moves_of_step hs
    simp only [events_append, events_cons, events_nil, List.append_nil]
    have hserved' : served s' = (events popped tr ++ (popped s t).toList).map card := by
      rw [hm.admission, hserved, List.map_append]
      cases popped s t <;> rfl
    refine ⟨?_, hserved', ?_, fun i => ?_⟩
    · rw [← hserved', hm.queue, hserved, hqueue, List.map_append]
      cases pushed s t <;> rfl
    · cases hp : pushed s t with
      | none => simpa using hnodup
      | some i =>
        have hnew : i ∉ events pushed tr := by
          rw [hfinished, hm.fresh i hp]
          simp
        rw [Option.toList_some, List.nodup_append]
        refine ⟨hnodup, List.pairwise_singleton _ _, fun j hj k hk heq => hnew ?_⟩
        rwa [← List.mem_singleton.1 hk, ← heq]
    · rw [List.mem_append, hfinished, hm.finished, Option.mem_toList]

theorem in_order_full : ∃ tr s, (system guests).Exec tr s ∧
    served s = (List.finRange 30).map (fun i => ((i : ℤ), 2)) ∧ s.waiters = [guests 30] ∧
    (events popped tr).map card ++ s.waiters.map card = (events pushed tr).map (fun i => card (guests i)) ∧
      served s = (events popped tr).map card ∧
      (events pushed tr).Nodup ∧ ∀ i, i ∈ events pushed tr ↔ s.clients i = .finished := by
  obtain ⟨s, -, he, hp⟩ := exec_of_any initial (step guests) firstDay
    (fun s => served s == (List.finRange 30).map (fun i => ((i : ℤ), 2)) && s.waiters == [guests 30])
    (by decide +kernel)
  obtain ⟨hserved, hwaiters⟩ := Bool.and_eq_true_iff.1 hp
  exact ⟨_, s, he, beq_iff_eq.1 hserved, beq_iff_eq.1 hwaiters, in_order guests he⟩

end Hotel.Sections
