/-
  The student server with logger commands (idz os 4/9) in any environment: the loop that
  collects the proposals, for every sequence of datagrams and of outcomes of `select` and
  `recvfrom`, and its end.
-/
import OsCourse.Students.Answers
import OsCourse.Students.Table

namespace Students.V9

open Text FirstMax Loop Transition System

/-- The variables of `main`, and where it is. -/
structure Server where
  pc : Pc
  /-- `clients[0..received)` -/
  clients : List ClientData
  desk : Desk

/-- What happens next. -/
inductive Event where
  | tick
  | select (r : Select)
  | heartbeats (fails : ℕ → Bool)
  /-- `recvfrom(logfd, ...)`: the sender and the bytes, or -1 -/
  | recvLog (r : Option (Address × Text)) (failed : Bool)
  /-- `recvfrom(sockfd, ...)` -/
  | recvMain (r : Option (Address × Text)) (fails : ℕ → Bool)
  /-- the test of the loop -/
  | go

namespace Server

variable (cfg : Config)

/-- Before the loop. -/
def initial (now : ℕ) : Server where
  pc := .check
  clients := []
  desk := { loggers := cfg.loggers.foldl (fun t l => addLogger now t l.1 l.2) [], lastCheck := 0, now := now }

/-- A proposal is stored at `clients[received]`, and the loggers are told. -/
def record (s : Server) (addr : Address) (payload : Text) (fails : ℕ → Bool) : Server :=
  let c := ClientData.ofDatagram addr payload
  if s.clients.length < maxClients then
    { pc := .check
      clients := s.clients ++ [c]
      desk := (s.desk.apply (.sendToLoggers fails (proposalText (s.clients.length + 1) cfg.numClients c))).1 }
  else { s with pc := .overrun }

/-- A step of `main` in the loop, or time that goes by. -/
def step (s : Server) : Event → Option Server
  | .tick => some { s with desk := (s.desk.apply .tick).1 }
  | .select r =>
    match s.pc, r with
    | .select, .error => some { s with pc := .collected }
    | .select, .eintr | .select, .timeout => some { s with pc := .heart false false }
    | .select, .ready main log => some { s with pc := .heart log main }
    | _, _ => none
  | .heartbeats fails =>
    match s.pc with
    | .heart log main =>
      some { s with
        pc := if log then .log main else afterLog main
        desk := (s.desk.apply (.checkHeartbeats fails)).1 }
    | _ => none
  | .recvLog r failed =>
    match s.pc, r with
    | .log main, none => some { s with pc := afterLog main }
    | .log main, some (addr, payload) =>
      if payload.length > 0 then
        some { s with pc := afterLog main, desk := (s.desk.apply (.command (received payload) addr failed)).1 }
      else some { s with pc := afterLog main }
    | _, _ => none
  | .recvMain r fails =>
    match s.pc, r with
    | .main, none => some { s with pc := .check }
    | .main, some (addr, payload) =>
      if payload.length > 0 then some (s.record cfg addr payload fails) else some { s with pc := .check }
    | _, _ => none
  | .go =>
    match s.pc with
    | .check =>
      if s.clients.length < cfg.numClients then some { s with pc := .select } else some { s with pc := .collected }
    | _ => none

def system (now : ℕ) : System Server Event := ofFn (initial cfg now) (step cfg)

end Server

/-! ## The table and the network -/

variable {cfg : Config} {s s' : Server} {e : Event} {now : ℕ} {tr : List (Server × Event)}

theorem reachable_addLogger (now : ℕ) (args : List (Text × ℤ)) {t : Table}
    (h : (Desk.system now).Reachable { loggers := t, lastCheck := 0, now := now }) :
    (Desk.system now).Reachable
      { loggers := args.foldl (fun t l => addLogger now t l.1 l.2) t, lastCheck := 0, now := now } := by
  induction args generalizing t with
  | nil => exact h
  | cons l args ih => exact ih (h.step (a := .addLogger l.1 l.2) rfl)

/-- What a step does to the desk is at most one call. -/
theorem desk_step (h : Server.step cfg s e = some s') : s'.desk = s.desk ∨ ∃ op, s'.desk = (s.desk.apply op).1 := by
  cases e with
  | tick =>
    cases h
    exact Or.inr ⟨.tick, rfl⟩
  | select r =>
    simp only [Server.step] at h
    split at h <;> cases h <;> exact Or.inl rfl
  | heartbeats fails =>
    simp only [Server.step] at h
    split at h <;> cases h
    exact Or.inr ⟨.checkHeartbeats fails, rfl⟩
  | recvLog r failed =>
    simp only [Server.step] at h
    split at h
    · cases h
      exact Or.inl rfl
    · next main addr payload hpc =>
      split_ifs at h <;> cases h
      · exact Or.inr ⟨.command (received payload) addr failed, rfl⟩
      · exact Or.inl rfl
    · cases h
  | recvMain r fails =>
    simp only [Server.step] at h
    split at h
    · cases h
      exact Or.inl rfl
    · next addr payload hpc =>
      split_ifs at h <;> cases h
      · rw [Server.record]
        split_ifs
        · exact Or.inr ⟨_, rfl⟩
        · exact Or.inl rfl
      · exact Or.inl rfl
    · cases h
  | go =>
    simp only [Server.step] at h
    split at h
    · split_ifs at h <;> cases h <;> exact Or.inl rfl
    · cases h

/-- The table of the server is one that the functions of the table can bring about. -/
theorem reachable_desk (h : (Server.system cfg now).Reachable s) : (Desk.system now).Reachable s.desk := by
  obtain ⟨tr, he⟩ := h
  induction he with
  | init hi =>
    cases hi
    exact reachable_addLogger now cfg.loggers (.init rfl)
  | @snoc tr s e s' _ hs ih =>
    rcases desk_step hs with heq | ⟨op, heq⟩
    · exact heq ▸ ih
    · exact heq ▸ ih.step (a := op) rfl

/-- The server among its clients and loggers, without the network. -/
def State.server (s : State) : Server where
  pc := s.pc
  clients := s.recorded.map Packet.client
  desk := { loggers := s.loggers, lastCheck := s.lastCheck, now := s.now }

/-- A packet that the server receives in the network is received by the server. -/
theorem server_recvfrom {logfd : Address} {s s' : State} {p : Packet} {fails : ℕ → Bool}
    (hs : V9.step cfg logfd s (.recvfrom (some p) fails) = some s') :
    ∃ e, Server.step cfg s.server e = some s'.server := by
  simp only [V9.step] at hs
  split at hs
  · next hpc =>
    refine ⟨.recvLog (some (p.src, p.payload)) (fails 0), ?_⟩
    split_ifs at hs with hp hpos <;> cases hs
    · simp only [Server.step, State.server, hpc, if_pos hpos]
      rfl
    · simp only [Server.step, State.server, hpc, if_neg hpos]
  · next hpc =>
    refine ⟨.recvMain (some (p.src, p.payload)) fails, ?_⟩
    split_ifs at hs with hp hpos <;> cases hs
    · simp only [Server.step, State.server, hpc, if_pos hpos, Server.record, V9.record, List.length_map]
      split_ifs
      · simp [Desk.apply, Packet.client]
      · rfl
    · simp only [Server.step, State.server, hpc, if_neg hpos]
  · cases hs

/-- **The server in the network is the server in some environment.** -/
theorem reachable_server {logfd : Address} {s : State} (h : (V9.system cfg logfd now).Reachable s) :
    (Server.system cfg now).Reachable s.server := by
  refine h.map State.server ?_ ?_
  · rintro s rfl
    rfl
  · intro s a s' _ hs
    replace hs : V9.step cfg logfd s a = some s' := hs
    cases a with
    | propose src proposal =>
      cases hs
      exact Or.inl rfl
    | start ip port src =>
      simp only [V9.step] at hs
      split_ifs at hs
      cases hs
      exact Or.inl rfl
    | logger ip port p =>
      simp only [V9.step] at hs
      split_ifs at hs <;> cases hs <;> exact Or.inl rfl
    | lose p | duplicate p =>
      simp only [V9.step] at hs
      split_ifs at hs
      cases hs
      exact Or.inl rfl
    | tick =>
      cases hs
      exact Or.inr ⟨.tick, rfl⟩
    | select r =>
      refine Or.inr ⟨.select r, ?_⟩
      simp only [V9.step] at hs
      split at hs <;> cases hs
      all_goals
        next hpc =>
          simp only [Server.system, ofFn, Server.step, State.server, hpc]
    | heartbeats fails =>
      refine Or.inr ⟨.heartbeats fails, ?_⟩
      simp only [V9.step] at hs
      split at hs <;> cases hs
      next hpc =>
        simp only [Server.system, ofFn, Server.step, State.server, hpc]
        rfl
    | recvfrom r fails =>
      cases r with
      | none =>
        simp only [V9.step] at hs
        split at hs <;> cases hs
        · next hpc =>
          refine Or.inr ⟨.recvLog none false, ?_⟩
          simp only [Server.system, ofFn, Server.step, State.server, hpc]
        · next hpc =>
          refine Or.inr ⟨.recvMain none fails, ?_⟩
          simp only [Server.system, ofFn, Server.step, State.server, hpc]
      | some p => exact Or.inr (server_recvfrom hs)
    | go =>
      refine Or.inr ⟨.go, ?_⟩
      simp only [V9.step] at hs
      split at hs
      · next hpc =>
        split_ifs at hs with hlt <;> cases hs
        · simp only [Server.system, ofFn, Server.step, State.server, hpc, List.length_map, if_pos hlt]
        · simp only [Server.system, ofFn, Server.step, State.server, hpc, List.length_map, if_neg hlt]
      · cases hs

/-- In the network too the table has no duplicates and stays within its array. -/
theorem distinct_loggers {logfd : Address} {s : State} (h : (V9.system cfg logfd now).Reachable s) :
    Distinct s.loggers :=
  (distinct_inductive now).reachable (reachable_desk (reachable_server h))

/-! ## What a step does -/

/-- In the body of the loop. -/
def Pc.running : Pc → Bool
  | .check | .collected | .overrun => false
  | _ => true

/-- A proposal is received. -/
def proposes : Event → Bool
  | .recvMain (some (_, payload)) _ => payload.length > 0
  | _ => false

/-- `select` fails. -/
def breaks : Event → Bool
  | .select .error => true
  | _ => false

theorem Pc.ne_of_running {pc : Pc} (h : pc.running = true) : pc ≠ .overrun ∧ pc ≠ .collected := by
  constructor
  · rintro rfl
    cases h
  · rintro rfl
    cases h

theorem Pc.ne_of_running_or {pc : Pc} (h : pc.running = true ∨ pc = .check) : pc ≠ .overrun ∧ pc ≠ .collected := by
  rcases h with h | rfl
  · exact Pc.ne_of_running h
  · exact ⟨by rintro ⟨⟩, by rintro ⟨⟩⟩

theorem proposes_of_breaks {e : Event} (h : breaks e = true) : proposes e = false := by
  cases e with
  | select r => rfl
  | _ => cases h

theorem breaks_of_proposes {e : Event} (h : proposes e = true) : breaks e = false := by
  cases e with
  | recvMain r fails => rfl
  | _ => cases h

inductive Advance (cfg : Config) (s s' : Server) (e : Event) : Prop
  | tick : e = .tick → s' = { s with desk := (s.desk.apply .tick).1 } → Advance cfg s s' e
  | go : e = .go → s.pc = .check → s.clients.length < cfg.numClients → s' = { s with pc := .select } →
      Advance cfg s s' e
  | stop : e = .go → s.pc = .check → cfg.numClients ≤ s.clients.length → s' = { s with pc := .collected } →
      Advance cfg s s' e
  | error : breaks e = true → s.pc = .select → s' = { s with pc := .collected } → Advance cfg s s' e
  | inside : breaks e = false → proposes e = false → s.pc.running = true → (s'.pc.running = true ∨ s'.pc = .check) →
      s'.clients = s.clients → Advance cfg s s' e
  | record : proposes e = true → s.pc = .main → s.clients.length < maxClients →
      s'.clients.length = s.clients.length + 1 → s'.pc = .check → Advance cfg s s' e
  | overrun : proposes e = true → s.pc = .main → maxClients ≤ s.clients.length → s' = { s with pc := .overrun } →
      Advance cfg s s' e

theorem running_afterLog (main : Bool) : (afterLog main).running = true ∨ afterLog main = .check := by
  cases main
  · exact Or.inr rfl
  · exact Or.inl rfl

theorem advance_of_step (h : Server.step cfg s e = some s') : Advance cfg s s' e := by
  cases e with
  | tick =>
    cases h
    exact .tick rfl rfl
  | select r =>
    simp only [Server.step] at h
    split at h <;> cases h
    · next hpc => exact .error rfl hpc rfl
    · next hpc => exact .inside rfl rfl (by rw [hpc]; rfl) (Or.inl rfl) rfl
    · next hpc => exact .inside rfl rfl (by rw [hpc]; rfl) (Or.inl rfl) rfl
    · next hpc => exact .inside rfl rfl (by rw [hpc]; rfl) (Or.inl rfl) rfl
  | heartbeats fails =>
    simp only [Server.step] at h
    split at h
    · next log main hpc =>
      cases h
      refine .inside rfl rfl (by rw [hpc]; rfl) ?_ rfl
      cases log
      · exact running_afterLog main
      · exact Or.inl rfl
    · cases h
  | recvLog r failed =>
    simp only [Server.step] at h
    split at h
    · next main hpc =>
      cases h
      exact .inside rfl rfl (by rw [hpc]; rfl) (running_afterLog main) rfl
    · next main addr payload hpc =>
      split_ifs at h <;> cases h <;> exact .inside rfl rfl (by rw [hpc]; rfl) (running_afterLog main) rfl
    · cases h
  | recvMain r fails =>
    simp only [Server.step] at h
    split at h
    · next hpc =>
      cases h
      exact .inside rfl rfl (by rw [hpc]; rfl) (Or.inr rfl) rfl
    · next addr payload hpc =>
      split_ifs at h with hpos
      · cases h
        rw [Server.record]
        split_ifs with hlt
        · exact .record (decide_eq_true hpos) hpc hlt (by simp) rfl
        · exact .overrun (decide_eq_true hpos) hpc (Nat.not_lt.1 hlt) rfl
      · cases h
        exact .inside rfl (decide_eq_false hpos) (by rw [hpc]; rfl) (Or.inr rfl) rfl
    · cases h
  | go =>
    simp only [Server.step] at h
    split at h
    · next hpc =>
      split_ifs at h with hlt
      · cases h
        exact .go rfl hpc hlt rfl
      · cases h
        exact .stop rfl hpc (not_lt.1 hlt) rfl
    · cases h

/-! ## Runs -/

/-- What holds along a run. -/
structure Collects (cfg : Config) (now : ℕ) (tr : List (Server × Event)) (s : Server) : Prop where
  count : tr.countP (fun x => proposes x.2) = s.clients.length + if s.pc = .overrun then 1 else 0
  room : s.clients.length ≤ maxClients
  within : s.clients.length ≤ cfg.numClients.toNat
  running : s.pc.running = true → s.clients.length < cfg.numClients
  overrun : s.pc = .overrun → s.clients.length = maxClients ∧ s.clients.length < cfg.numClients
  errors : (∃ x ∈ tr, breaks x.2 = true) ↔ s.pc = .collected ∧ s.clients.length < cfg.numClients
  idle : cfg.numClients ≤ 0 → s.desk.loggers = (Server.initial cfg now).desk.loggers

theorem collects_initial (cfg : Config) (now : ℕ) : Collects cfg now [] (Server.initial cfg now) where
  count := rfl
  room := Nat.zero_le maxClients
  within := Nat.zero_le _
  running h := by cases h
  overrun h := by cases h
  errors := by simp [Server.initial]
  idle _ := rfl

theorem exists_breaks_snoc {x : Server × Event} :
    (∃ y ∈ tr ++ [x], breaks y.2 = true) ↔ (∃ y ∈ tr, breaks y.2 = true) ∨ breaks x.2 = true := by
  simp only [List.mem_append, List.mem_singleton, or_and_right, exists_or, exists_eq_left]

theorem countP_snoc {x : Server × Event} : (tr ++ [x]).countP (fun y => proposes y.2) =
    tr.countP (fun y => proposes y.2) + if proposes x.2 = true then 1 else 0 := by
  rw [List.countP_append, List.countP_singleton]

theorem Collects.snoc (h : Collects cfg now tr s) (hs : Server.step cfg s e = some s') :
    Collects cfg now (tr ++ [(s, e)]) s' := by
  obtain ⟨hcount, hroom, hwithin, hrunning, hoverrun, herrors, hidle⟩ := h
  have hpos : s.pc.running = true → 0 < cfg.numClients := fun hr => by
    have := hrunning hr
    omega
  rcases advance_of_step hs with ⟨rfl, rfl⟩ | ⟨rfl, hpc, hlt, rfl⟩ | ⟨rfl, hpc, hle, rfl⟩ | ⟨hb, hpc, rfl⟩ |
    ⟨hb, hp, hr, hpc', hclients⟩ | ⟨hp, hpc, hlt, hclients, hpc'⟩ | ⟨hp, hpc, hle, rfl⟩
  · refine ⟨?_, hroom, hwithin, hrunning, hoverrun, ?_, hidle⟩
    · rw [countP_snoc, hcount]
      rfl
    · rw [exists_breaks_snoc, herrors]
      simp [breaks]
  · -- the next round
    refine ⟨?_, hroom, hwithin, fun _ => hlt, fun h => (by cases h), ?_, hidle⟩
    · rw [countP_snoc, hcount, hpc]
      rfl
    · rw [exists_breaks_snoc, herrors]
      simp [breaks, hpc]
  · refine ⟨?_, hroom, hwithin, fun h => (by cases h), fun h => (by cases h), ?_, hidle⟩
    · rw [countP_snoc, hcount, hpc]
      rfl
    · rw [exists_breaks_snoc, herrors]
      simp [breaks, hpc, not_lt.2 hle]
  · -- `select` fails
    have hlt := hrunning (by rw [hpc]; rfl)
    have hp := proposes_of_breaks hb
    refine ⟨?_, hroom, hwithin, fun h => (by cases h), fun h => (by cases h), ?_, hidle⟩
    · rw [countP_snoc, hcount, hpc, hp]
      rfl
    · rw [exists_breaks_snoc]
      exact iff_of_true (Or.inr hb) ⟨rfl, hlt⟩
  · have hlt := hrunning hr
    have hne := Pc.ne_of_running hr
    have hne' := Pc.ne_of_running_or hpc'
    refine ⟨?_, ?_, ?_, ?_, fun h => absurd h hne'.1, ?_, fun hle => absurd hle (not_le.2 (hpos hr))⟩
    · rw [countP_snoc, hcount, hp, hclients, if_neg hne.1, if_neg hne'.1]
      rfl
    · rwa [hclients]
    · rwa [hclients]
    · exact fun _ => hclients ▸ hlt
    · rw [exists_breaks_snoc, herrors]
      simp [hb, hne.2, hne'.2]
  · have hr : s.pc.running = true := by
      rw [hpc]
      rfl
    have hlt' := hrunning hr
    have hb := breaks_of_proposes hp
    refine ⟨?_, ?_, ?_, ?_, ?_, ?_, fun hle => absurd hle (not_le.2 (hpos hr))⟩
    · rw [countP_snoc, hcount, hp, hclients, hpc, hpc']
      rfl
    · omega
    · omega
    · rw [hpc']
      exact fun h => by cases h
    · rw [hpc']
      exact fun h => by cases h
    · rw [exists_breaks_snoc, herrors]
      simp [hb, hpc, hpc']
  · -- behind the end of the array
    have hr : s.pc.running = true := by
      rw [hpc]
      rfl
    have hlt' := hrunning hr
    have hb := breaks_of_proposes hp
    refine ⟨?_, hroom, hwithin, fun h => (by cases h), fun _ => ⟨Nat.le_antisymm hroom hle, hlt'⟩, ?_, hidle⟩
    · rw [countP_snoc, hcount, hp, hpc]
      rfl
    · rw [exists_breaks_snoc, herrors]
      simp [hb, hpc]

theorem collects (h : (Server.system cfg now).Exec tr s) : Collects cfg now tr s := by
  induction h with
  | init hi =>
    cases hi
    exact collects_initial cfg now
  | snoc _ hs ih => exact ih.snoc hs

/-- Every proposal has been stored within the array. -/
def WritesInBounds (tr : List (Server × Event)) : Prop :=
  ∀ x ∈ tr, x.1.pc = .main → proposes x.2 = true → x.1.clients.length < maxClients

theorem writesInBounds_snoc : WritesInBounds (tr ++ [(s, e)]) ↔
    WritesInBounds tr ∧ (s.pc = .main → proposes e = true → s.clients.length < maxClients) := by
  rw [WritesInBounds, List.forall_mem_append, List.forall_mem_singleton]
  rfl

/-- After a store behind the end nothing more is received. -/
theorem writesInBounds_iff_pc (h : (Server.system cfg now).Exec tr s) : WritesInBounds tr ↔ s.pc ≠ .overrun := by
  induction h with
  | init hi =>
    cases hi
    exact iff_of_true (fun x hx => absurd hx List.not_mem_nil) (fun h => by cases h)
  | @snoc tr s e s' _ hs ih =>
    rw [writesInBounds_snoc, ih]
    rcases advance_of_step hs with ⟨rfl, rfl⟩ | ⟨rfl, hpc, hlt, rfl⟩ | ⟨rfl, hpc, hle, rfl⟩ | ⟨hb, hpc, rfl⟩ |
      ⟨hb, hp, hr, hpc', hclients⟩ | ⟨hp, hpc, hlt, hclients, hpc'⟩ | ⟨hp, hpc, hle, rfl⟩
    · simp [proposes]
    · simp [hpc]
    · simp [hpc]
    · simp [hpc]
    · simp [hp, (Pc.ne_of_running hr).1, (Pc.ne_of_running_or hpc').1]
    · simp [hpc, hpc', hlt]
    · simp [hpc, hp, hle]

/-- **When the array is large enough**: for at most `MAX_CLIENTS` clients, or if no more
    proposals are received; the loop does not compare the two. -/
theorem writesInBounds_iff (h : (Server.system cfg now).Exec tr s) :
    WritesInBounds tr ↔ cfg.numClients ≤ maxClients ∨ tr.countP (fun x => proposes x.2) ≤ maxClients := by
  have hc := collects h
  rw [writesInBounds_iff_pc h, hc.count]
  constructor
  · intro hpc
    right
    rw [if_neg hpc]
    exact hc.room
  · intro hle hpc
    obtain ⟨hlen, hlt⟩ := hc.overrun hpc
    rw [if_pos hpc] at hle
    omega

/-- A round in which a proposal is received. -/
def proposalRound : List Event :=
  [.go, .select (.ready true false), .heartbeats fun _ => false, .recvMain (some (client 5000, ['x'])) fun _ => false]

/-- A server for 101 clients. -/
def crowd : Config := { numClients := 101, loggers := [] }

theorem not_writesInBounds : ¬ ∀ (cfg : Config) (now : ℕ) (tr : List (Server × Event)) (s : Server),
    (Server.system cfg now).Exec tr s → WritesInBounds tr := by
  intro hall
  obtain ⟨s, -, he, hp⟩ := exec_of_any (Server.initial crowd 1000) (Server.step crowd)
    (List.replicate 101 proposalRound).flatten (fun s => s.pc = .overrun) (by decide +kernel)
  exact (writesInBounds_iff_pc he).1 (hall _ _ _ _ he) (of_decide_eq_true hp)

theorem writesInBounds_iff_crowd : ∃ tr s, (Server.system crowd 1000).Exec tr s ∧ tr.length = 8 ∧
    (WritesInBounds tr ↔ crowd.numClients ≤ maxClients ∨ tr.countP (fun x => proposes x.2) ≤ maxClients) := by
  obtain ⟨s, -, he, -⟩ := exec_of_any (Server.initial crowd 1000) (Server.step crowd)
    (List.replicate 2 proposalRound).flatten (fun s => s.pc = .check) (by decide +kernel)
  exact ⟨_, s, he, rfl, writesInBounds_iff he⟩

/-! ## The end -/

/-- `Selected best proposal: %s (from %s:%d)` -/
def selectedText (c : ClientData) : Text :=
  "Selected best proposal: ".toList ++ c.message ++ " (from ".toList ++ c.addr.text ++ [')']

def Answer.text : Answer → Text
  | .agree => "AGREE".toList
  | .reject => "REJECT".toList
  | .shutdown => []

/-- `Sent %s to %s:%d` -/
def sentText (r : Reply) : Text := "Sent ".toList ++ Answer.text r.answer ++ " to ".toList ++ r.addr.text

/-- `send_to_loggers` for the texts behind the loop; `fails k` for the `k`-th of them. -/
def tellDesk (fails : ℕ → ℕ → Bool) (d : Desk × ℕ) (msg : Text) : Desk × ℕ :=
  ((d.1.apply (.sendToLoggers (fails d.2) msg)).1, d.2 + 1)

/-- The selection and the answers of `main`. -/
def Server.finish (cfg : Config) (fails : ℕ → ℕ → Bool) (s : Server) : Option (List Reply × Desk × ℕ) :=
  finishWith (fun d => decide (d.1.loggers.length > 0)) (tellDesk fails)
    (fun c => snprintf (maxMsgLen + 100) (selectedText c)) (fun r => snprintf 256 (sentText r))
    s.clients cfg.numClients.toNat (s.desk, 0)

/-- The end reads entries that have been recorded, and answers to addresses from which a
    proposal has been received. -/
def EndsClean (cfg : Config) (s : Server) : Prop :=
  ∀ fails, ∃ sent d, s.finish cfg fails = some (sent, d) ∧ ∀ r ∈ sent, ∃ c ∈ s.clients, r.addr = c.addr

/-- **When the end is clean**: `select` has not failed, and there is a client; or there is
    none, and no logger on the command line either, to whom the best proposal would be told. -/
theorem endsClean_iff (h : (Server.system cfg now).Exec tr s) (hpc : s.pc = .collected) :
    EndsClean cfg s ↔ (1 ≤ cfg.numClients ∧ ∀ x ∈ tr, breaks x.2 = false) ∨
      (cfg.numClients ≤ 0 ∧ (Server.initial cfg now).desk.loggers = []) := by
  obtain ⟨-, -, hwithin, -, -, herrors, hidle⟩ := collects h
  rw [hpc, and_iff_right rfl] at herrors
  by_cases hlt : s.clients.length < cfg.numClients
  · -- the loop has been left too early
    obtain ⟨x, hx, hbreak⟩ := herrors.2 hlt
    have hnone : ∀ fails, s.finish cfg fails = none := fun fails => finishWith_eq_none _ _ _ _ (by omega) _
    refine iff_of_false (fun hclean => ?_) ?_
    · obtain ⟨sent, d, hfinish, -⟩ := hclean fun _ _ => false
      rw [hnone] at hfinish
      cases hfinish
    · rintro (⟨-, hno⟩ | ⟨hle, -⟩)
      · rw [hno x hx] at hbreak
        cases hbreak
      · omega
  · have hno : ∀ x ∈ tr, breaks x.2 = false := by
      intro x hx
      by_contra hbreak
      exact hlt (herrors.1 ⟨x, hx, by simpa using hbreak⟩)
    have hfull : cfg.numClients.toNat ≤ s.clients.length := by omega
    rcases lt_or_ge 0 cfg.numClients with hpos | hle
    · refine iff_of_true (fun fails => ⟨_, _, finishWith_eq _ _ _ _ hfull (Or.inl (by omega)), fun r hr => ?_⟩)
        (Or.inl ⟨hpos, hno⟩)
      obtain ⟨i, hi, rfl⟩ := mem_replies.1 hr
      have hlen : i < s.clients.length := by omega
      exact ⟨entry s.clients i, by rw [entry_eq_get hlen]; exact List.getElem_mem hlen, rfl⟩
    · have hzero : cfg.numClients.toNat = 0 := by omega
      have hnil : s.clients = [] := List.eq_nil_of_length_eq_zero (by omega)
      rw [← hidle hle]
      constructor
      · intro hclean
        right
        refine ⟨hle, ?_⟩
        by_contra hloggers
        obtain ⟨sent, d, hfinish, -⟩ := hclean fun _ _ => false
        rw [Server.finish, hzero, hnil,
          finishWith_nil _ _ _ _ (by simpa [List.length_pos_iff] using hloggers)] at hfinish
        cases hfinish
      · rintro (⟨hone, -⟩ | ⟨-, hloggers⟩) fails
        · omega
        · refine ⟨_, _, finishWith_eq _ _ _ _ hfull (Or.inr (by simp [hloggers])), fun r hr => ?_⟩
          rw [hzero] at hr
          cases hr

/-- `select` fails when the first of two proposals has been received. -/
def failingRun : List Event := proposalRound ++ [.go, .select .error]

theorem not_endsClean : ¬ ∀ (cfg : Config) (now : ℕ) (tr : List (Server × Event)) (s : Server),
    (Server.system cfg now).Exec tr s → s.pc = .collected → cfg.numClients ≤ maxClients → EndsClean cfg s := by
  intro hall
  obtain ⟨s, -, he, hp⟩ := exec_of_any (Server.initial pair 1000) (Server.step pair) failingRun
    (fun s => s.pc = .collected ∧ s.clients.length = 1) (by decide +kernel)
  rw [decide_eq_true_iff] at hp
  obtain ⟨sent, d, hfinish, -⟩ := hall _ _ _ _ he hp.1 (by decide) fun _ _ => false
  rw [Server.finish, finishWith_eq_none _ _ _ _ (by rw [hp.2]; decide)] at hfinish
  cases hfinish

/-- Two proposals are received. -/
theorem endsClean_pair : ∃ s, (Server.system pair 1000).Reachable s ∧ s.clients.length = 2 ∧ EndsClean pair s := by
  obtain ⟨s, -, he, hp⟩ := exec_of_any (Server.initial pair 1000) (Server.step pair)
    (proposalRound ++ proposalRound ++ [.go]) (fun s => s.pc = .collected ∧ s.clients.length = 2) (by decide +kernel)
  rw [decide_eq_true_iff] at hp
  exact ⟨s, ⟨_, he⟩, hp.2, (endsClean_iff he hp.1).2 (Or.inl ⟨by decide, by decide +kernel⟩)⟩

end Students.V9
