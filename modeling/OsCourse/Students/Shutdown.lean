/-
  The student server with a shutdown on `SIGINT` (idz os 4/10): the loop that collects
  the proposals, with every outcome of `select` and `recvfrom`, the two endings, and
  the signal at any moment.
-/
import OsCourse.Lib.Traces
import OsCourse.Students.Proposals

namespace Students.V10

open Text FirstMax Transition System

/-- The command line. -/
structure Config where
  numClients : ℤ
  loggers : List (Text × ℤ)

/-- Where `main` is. -/
inductive Pc where
  /-- before `sigaction` -/
  | start
  /-- before the test of the loop -/
  | check
  /-- before `select` -/
  | select
  /-- before `recvfrom(sockfd, ...)`; `log` says whether `logfd` is ready too -/
  | main (log : Bool)
  /-- before `recvfrom(logfd, ...)` -/
  | log
  /-- before `if (shutdown_requested)` -/
  | decide
  /-- in `notify_shutdown`, before entry `i` -/
  | notify (i : ℕ)
  /-- in the loop that sends the answers, before entry `i` -/
  | answer (best i : ℕ)
  | done
  /-- ended by the signal before `sigaction`, or by `exit(EXIT_FAILURE)` -/
  | killed
  /-- a datagram has been stored behind the end of the array -/
  | overrun
  deriving DecidableEq

structure State where
  pc : Pc
  /-- `shutdown_requested` -/
  shutdown : Bool
  /-- `clients[0..received_clients)` -/
  clients : List ClientData
  loggers : Table
  /-- the answers that have been sent -/
  sent : List Reply
  /-- what the loggers have been sent -/
  logs : List (Address × Text)

def initial : State :=
  { pc := .start, shutdown := false, clients := [], loggers := [], sent := [], logs := [] }

inductive Label where
  | sigint
  /-- the set-up, at the time `now`; it can fail -/
  | setUp (now : ℕ) (ok : Bool)
  | select (r : Select)
  /-- `recvfrom`, at the time `now`: the sender and the bytes, or -1 -/
  | recvfrom (now : ℕ) (r : Option (Address × Text))
  /-- any other step of the server -/
  | go

/-- `Client %d/%d: %s:%d - %s` -/
def clientText (count : ℕ) (numClients : ℤ) (c : ClientData) : Text :=
  "Client ".toList ++ Nat.toDigits 10 count ++ '/' :: (fmtInt numClients ++ ':' :: ' ' ::
    (c.addr.text ++ " - ".toList ++ c.message))

variable (cfg : Config)

/-- The number of entries that the last loops go over. -/
def Config.count : ℕ := cfg.numClients.toNat

/-- The rest of the round, when the main socket has been read. -/
def afterMain (log : Bool) : Pc := if log then .log else .check

/-- A datagram with at least one byte is stored. -/
def store (s : State) (a : Address) (payload : Text) (pc : Pc) : State :=
  let c := ClientData.ofDatagram a payload
  if s.clients.length < maxClients then
    { s with
      pc := pc
      clients := s.clients ++ [c]
      logs := s.logs ++ sendToLoggers s.loggers (clientText (s.clients.length + 1) cfg.numClients c) }
  else { s with pc := .overrun }

/-- A step of `main`, or the signal. -/
def step (s : State) : Label → Option State
  | .sigint =>
    match s.pc with
    | .start => some { s with pc := .killed }
    | .done | .killed | .overrun => none
    | _ => some { s with shutdown := true }
  | .setUp now ok =>
    match s.pc with
    | .start =>
      if ok then
        some { s with pc := .check, loggers := cfg.loggers.foldl (fun t l => addLogger now t l.1 l.2) [] }
      else some { s with pc := .killed }
    | _ => none
  | .select r =>
    match s.pc, r with
    | .select, .error => some { s with pc := .decide }
    | .select, .eintr | .select, .timeout => some { s with pc := .check }
    | .select, .ready true log => some { s with pc := .main log }
    | .select, .ready false log => some { s with pc := afterMain log }
    | _, _ => none
  | .recvfrom now r =>
    match s.pc with
    | .main log =>
      match r with
      | none => some { s with pc := afterMain log }
      | some (a, payload) =>
        if payload.length > 0 then some (store cfg s a payload (afterMain log))
        else some { s with pc := afterMain log }
    | .log =>
      match r with
      | none => some { s with pc := .check }
      | some (a, payload) =>
        if payload.length > 0 ∧ "REGISTER".toList.isPrefixOf (received payload) then
          some { s with pc := .check, loggers := addLogger now s.loggers (inetNtoa a.ip) a.port.toNat }
        else some { s with pc := .check }
    | _ => none
  | .go =>
    match s.pc with
    | .check =>
      if s.shutdown = false ∧ s.clients.length < cfg.numClients then some { s with pc := .select }
      else some { s with pc := .decide }
    | .decide =>
      if s.shutdown then some { s with pc := .notify 0 }
      else some { s with pc := .answer (selectBest s.clients cfg.count) 0 }
    | .notify i =>
      if i < s.clients.length then
        some { s with pc := .notify (i + 1), sent := s.sent ++ [reply s.clients (fun _ => .shutdown) i] }
      else
        some { s with pc := .done, logs := s.logs ++ sendToLoggers s.loggers "SERVER SHUTTING DOWN".toList }
    | .answer best i =>
      if i < cfg.count then
        some { s with pc := .answer best (i + 1), sent := s.sent ++ [reply s.clients (response best) i] }
      else some { s with pc := .done }
    | _ => none

def system : System State Label := ofFn initial (step cfg)

/-- The server has ended. -/
def Ended (s : State) : Prop := s.pc = .done ∨ s.pc = .killed ∨ s.pc = .overrun

/-- All proposals have one answer; these are all `SHUTDOWN`, or none of them is and the
    first longest proposal has the consent. -/
structure Answered (s : State) : Prop where
  inBounds : s.pc ≠ .overrun
  answer : ∀ i < s.clients.length, ∃ r, s.sent.filter (fun r => r.client = i) = [r] ∧
    r.addr = (entry s.clients i).addr
  ending : (∀ r ∈ s.sent, r.answer = .shutdown) ∨
    (∀ r ∈ s.sent, r.answer ≠ .shutdown) ∧
      (0 < s.clients.length → ∃ best,
        IsFirstMax (fun i => (entry s.clients i).message.length) s.clients.length best ∧
          ∀ r ∈ s.sent, r.answer = .agree ↔ r.client = best)

/-! ## The invariant -/

/-- What has been sent, at each place of `main`. -/
def Sent (s : State) : Prop :=
  match s.pc with
  | .start | .killed => s.clients = [] ∧ s.sent = []
  | .check | .log | .decide => s.sent = []
  | .select | .main _ => s.sent = [] ∧ s.clients.length < cfg.count
  | .notify i => i ≤ s.clients.length ∧ s.sent = replies s.clients (fun _ => .shutdown) i
  | .answer best i =>
    i ≤ cfg.count ∧ best = selectBest s.clients cfg.count ∧ s.sent = replies s.clients (response best) i
  | .done =>
    s.sent = replies s.clients (fun _ => .shutdown) s.clients.length ∨
      s.sent = replies s.clients (response (selectBest s.clients cfg.count)) cfg.count
  | .overrun => False

/-- The invariant: there is room for every proposal that can come. -/
def Inv (s : State) : Prop := s.clients.length ≤ cfg.count ∧ Sent cfg s

variable {cfg} {s s' : State}

theorem inv_initial : Inv cfg initial := ⟨Nat.zero_le _, rfl, rfl⟩

/-- A step that neither records nor sends anything. -/
theorem Inv.move (h : Inv cfg s) {t : State} (hc : t.clients = s.clients) (hs : Sent cfg t) : Inv cfg t :=
  ⟨hc ▸ h.1, hs⟩

theorem sent_afterMain {t : State} (log : Bool) (hpc : t.pc = afterMain log) (hs : t.sent = []) : Sent cfg t := by
  unfold Sent
  rw [hpc]
  cases log <;> exact hs

/-- Recording a proposal. -/
theorem Inv.store (h : Inv cfg s) (hmax : cfg.numClients ≤ maxClients) {log : Bool} (hpc : s.pc = .main log)
    (a : Address) (payload : Text) : Inv cfg (Students.V10.store cfg s a payload (afterMain log)) := by
  obtain ⟨hle, hsent⟩ := h
  unfold Sent at hsent
  rw [hpc] at hsent
  obtain ⟨hnil, hlt⟩ := hsent
  have hroom : s.clients.length < maxClients := by
    unfold Config.count at hlt
    omega
  rw [Students.V10.store, if_pos hroom]
  refine ⟨?_, sent_afterMain log rfl hnil⟩
  simp only [List.length_append, List.length_singleton]
  exact hlt

/-- What `select` finds. -/
theorem Inv.select (h : Inv cfg s) {r : Select} (hs : step cfg s (.select r) = some s') : Inv cfg s' := by
  have hsent := h.2
  unfold Sent at hsent
  simp only [step] at hs
  split at hs
  · next hpc =>
    cases hs
    rw [hpc] at hsent
    exact h.move rfl hsent.1
  · next hpc =>
    cases hs
    rw [hpc] at hsent
    exact h.move rfl hsent.1
  · next hpc =>
    cases hs
    rw [hpc] at hsent
    exact h.move rfl hsent.1
  · next hpc =>
    cases hs
    rw [hpc] at hsent
    exact h.move rfl hsent
  · next log hpc =>
    cases hs
    rw [hpc] at hsent
    exact h.move rfl (sent_afterMain log rfl hsent.1)
  · cases hs

/-- What is received: a proposal at the one socket, a registration at the other. -/
theorem Inv.recvfrom (h : Inv cfg s) (hmax : cfg.numClients ≤ maxClients) {now : ℕ}
    {r : Option (Address × Text)} (hs : step cfg s (.recvfrom now r) = some s') : Inv cfg s' := by
  have hsent := h.2
  unfold Sent at hsent
  simp only [step] at hs
  split at hs
  · next log hpc =>
    rw [hpc] at hsent
    split at hs
    · cases hs
      exact h.move rfl (sent_afterMain log rfl hsent.1)
    · split_ifs at hs <;> cases hs
      · exact h.store hmax hpc _ _
      · exact h.move rfl (sent_afterMain log rfl hsent.1)
  · next hpc =>
    rw [hpc] at hsent
    split at hs
    · cases hs
      exact h.move rfl hsent
    · split_ifs at hs <;> cases hs
      · exact h.move rfl hsent
      · exact h.move rfl hsent
  · cases hs

/-- The tests of the loops, and the answers that are sent in their bodies. -/
theorem Inv.go (h : Inv cfg s) (hs : step cfg s .go = some s') : Inv cfg s' := by
  have hsent := h.2
  unfold Sent at hsent
  simp only [step] at hs
  split at hs
  · next hpc =>
    rw [hpc] at hsent
    split_ifs at hs with hc <;> cases hs
    · refine h.move rfl ⟨hsent, ?_⟩
      show s.clients.length < cfg.numClients.toNat
      omega
    · exact h.move rfl hsent
  · next hpc =>
    rw [hpc] at hsent
    split_ifs at hs <;> cases hs
    · exact h.move rfl ⟨Nat.zero_le _, hsent⟩
    · exact h.move rfl ⟨Nat.zero_le _, rfl, hsent⟩
  · next i hpc =>
    rw [hpc] at hsent
    split_ifs at hs with hlt <;> cases hs
    · refine h.move rfl ⟨hlt, ?_⟩
      rw [hsent.2, replies_succ]
    · refine h.move rfl (.inl ?_)
      rw [← Nat.le_antisymm hsent.1 (not_lt.1 hlt)]
      exact hsent.2
  · next best i hpc =>
    rw [hpc] at hsent
    obtain ⟨hle, hbest, hsent⟩ := hsent
    split_ifs at hs with hlt <;> cases hs
    · refine h.move rfl ⟨hlt, hbest, ?_⟩
      rw [hsent, replies_succ]
    · refine h.move rfl (.inr ?_)
      rw [← hbest, ← Nat.le_antisymm hle (not_lt.1 hlt)]
      exact hsent
  · cases hs

theorem inv_inductive (hmax : cfg.numClients ≤ maxClients) : (system cfg).Inductive (Inv cfg) := by
  refine ⟨fun s hs => hs ▸ inv_initial, fun s a s' hi hs => ?_⟩
  replace hs : step cfg s a = some s' := hs
  have hsent := hi.2
  unfold Sent at hsent
  cases a with
  | sigint =>
    simp only [step] at hs
    split at hs
    · next hpc =>
      cases hs
      rw [hpc] at hsent
      exact hi.move rfl hsent
    · cases hs
    · cases hs
    · cases hs
    · cases hs
      exact hi.move rfl hi.2
  | setUp now ok =>
    simp only [step] at hs
    split at hs
    · next hpc =>
      rw [hpc] at hsent
      split_ifs at hs <;> cases hs
      · exact hi.move rfl hsent.2
      · exact hi.move rfl hsent
    · cases hs
  | select r => exact hi.select hs
  | recvfrom now r => exact hi.recvfrom hmax hs
  | go => exact hi.go hs

/-! ## The answers -/

theorem answered_shutdown (hpc : s.pc ≠ .overrun)
    (hs : s.sent = replies s.clients (fun _ => .shutdown) s.clients.length) : Answered s := by
  refine ⟨hpc, fun i hi => ⟨_, hs ▸ filter_replies hi, rfl⟩, .inl fun r hr => ?_⟩
  obtain ⟨j, -, rfl⟩ := mem_replies.1 (hs ▸ hr)
  rfl

theorem answered_best (hpc : s.pc ≠ .overrun) (hle : s.clients.length ≤ cfg.count)
    (hs : s.sent = replies s.clients (response (selectBest s.clients cfg.count)) cfg.count) : Answered s := by
  refine ⟨hpc, fun i hi => ⟨_, hs ▸ filter_replies (Nat.lt_of_lt_of_le hi hle), rfl⟩, .inr ⟨fun r hr => ?_, ?_⟩⟩
  · obtain ⟨j, -, rfl⟩ := mem_replies.1 (hs ▸ hr)
    simp only [reply, response]
    split_ifs <;> simp
  · intro hpos
    refine ⟨_, selectBest_spec hpos hle, fun r hr => ?_⟩
    obtain ⟨j, -, rfl⟩ := mem_replies.1 (hs ▸ hr)
    simp only [reply, response]
    split_ifs with h <;> simp [h]

/-! ## The server ends -/

/-- How many steps are still to come, when the signal comes now and no datagram any more. -/
def rank (cfg : Config) (s : State) : ℕ :=
  let rest := cfg.count + s.clients.length + if s.shutdown then 0 else 1
  match s.pc with
  | .done | .killed | .overrun => 0
  | .start => 1
  | .answer _ i => cfg.count - i + 1
  | .notify i => s.clients.length - i + 1
  | .decide => rest + 2
  | .check => rest + 3
  | .select | .log => rest + 4
  | .main _ => rest + 5

/-- There is always a step that leads on. -/
theorem exists_step (cfg : Config) (hend : ¬ Ended s) : ∃ a s', step cfg s a = some s' ∧ rank cfg s' < rank cfg s := by
  cases hpc : s.pc with
  | start =>
    refine ⟨.sigint, _, by simp only [step, hpc]; rfl, ?_⟩
    simp [rank, hpc]
  | check =>
    cases hsd : s.shutdown with
    | true =>
      refine ⟨.go, _, by simp only [step, hpc, hsd, Bool.true_eq_false, false_and, if_false]; rfl, ?_⟩
      simp [rank, hpc, hsd]
    | false =>
      refine ⟨.sigint, _, by simp only [step, hpc]; rfl, ?_⟩
      simp [rank, hpc, hsd]
  | select =>
    refine ⟨.select .eintr, _, by simp only [step, hpc]; rfl, ?_⟩
    simp [rank, hpc]
  | main log =>
    refine ⟨.recvfrom 0 none, _, by simp only [step, hpc]; rfl, ?_⟩
    cases log <;> simp [rank, hpc, afterMain]
  | log =>
    refine ⟨.recvfrom 0 none, _, by simp only [step, hpc]; rfl, ?_⟩
    simp [rank, hpc]
  | decide =>
    cases hsd : s.shutdown with
    | true =>
      refine ⟨.go, _, by simp only [step, hpc, hsd, if_true]; rfl, ?_⟩
      simp only [rank, hpc]; omega
    | false =>
      refine ⟨.go, _, by simp only [step, hpc, hsd, Bool.false_eq_true, if_false]; rfl, ?_⟩
      simp only [rank, hpc]; omega
  | notify i =>
    by_cases hlt : i < s.clients.length
    · refine ⟨.go, _, by simp only [step, hpc, hlt, if_true]; rfl, ?_⟩
      simp only [rank, hpc]; omega
    · refine ⟨.go, _, by simp only [step, hpc, hlt, if_false]; rfl, ?_⟩
      simp only [rank, hpc]; omega
  | answer best i =>
    by_cases hlt : i < cfg.count
    · refine ⟨.go, _, by simp only [step, hpc, hlt, if_true]; rfl, ?_⟩
      simp only [rank, hpc]; omega
    · refine ⟨.go, _, by simp only [step, hpc, hlt, if_false]; rfl, ?_⟩
      simp only [rank, hpc]; omega
  | done => exact absurd (.inl hpc) hend
  | killed => exact absurd (.inr (.inl hpc)) hend
  | overrun => exact absurd (.inr (.inr hpc)) hend

/-- **Every proposal has its answer.**  For every course of the collection, and wherever
    the signal comes, the server can come to its end; there, if it has ended, every
    proposal has one answer, and the two endings exclude each other. -/
theorem answered (cfg : Config) (hmax : cfg.numClients ≤ maxClients) (h : (system cfg).Reachable s) :
    (∃ tr' s', (system cfg).Steps s tr' s' ∧ Ended s') ∧ (Ended s → Answered s) := by
  refine ⟨h.exists_steps (rank cfg) fun _ _ hend => exists_step cfg hend, fun hend => ?_⟩
  obtain ⟨hle, hsent⟩ := (inv_inductive hmax).reachable h
  unfold Sent at hsent
  rcases hend with hpc | hpc | hpc
  · rw [hpc] at hsent
    have hover : s.pc ≠ .overrun := by rw [hpc]; simp
    rcases hsent with hsent | hsent
    · exact answered_shutdown hover hsent
    · exact answered_best hover hle hsent
  · rw [hpc] at hsent
    have hover : s.pc ≠ .overrun := by rw [hpc]; simp
    refine answered_shutdown hover ?_
    rw [hsent.1, hsent.2]; rfl
  · rw [hpc] at hsent
    exact hsent.elim

/-- Three proposals are expected; `select` fails after the second one. -/
def broken : Config := { numClients := 3, loggers := [] }

/-- The steps of a round that receives one datagram. -/
def round (port : UInt16) (payload : Text) : List Label :=
  [.go, .select (.ready true false), .recvfrom 0 (some (⟨⟨127, 0, 0, 1⟩, port⟩, payload))]

def brokenRun : List Label :=
  .setUp 0 true :: round 40000 ['a'] ++ round 40001 ['b', 'b'] ++
    [.go, .select .error, .go, .go, .go, .sigint, .go, .go]

theorem answered_broken : ∃ s, (system broken).Reachable s ∧ Ended s ∧ s.clients.length = 2 ∧
    (∃ tr' s', (system broken).Steps s tr' s' ∧ Ended s') ∧ (Ended s → Answered s) := by
  obtain ⟨s, -, he, hp⟩ := exec_of_any initial (step broken) brokenRun
    (fun s => s.pc == .done && s.clients.length == 2) (by decide +kernel)
  simp only [Bool.and_eq_true, beq_iff_eq] at hp
  exact ⟨s, ⟨_, he⟩, .inl hp.1, hp.2, answered broken (by decide) ⟨_, he⟩⟩

end Students.V10
