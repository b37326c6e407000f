/-
  The student server with loggers that register themselves (idz os 4/9): its
  collecting loop, with the suitors, the logger clients and the network.  The
  network may reorder, lose and duplicate datagrams.
-/
import OsCourse.Lib.Traces
import OsCourse.Students.Proposals

namespace Students.V9

open Text Transition System

/-- The command line of the server. -/
structure Config where
  numClients : ℤ
  loggers : List (Text × ℤ)

/-- Who has sent a datagram. -/
inductive Party where
  | server
  /-- a suitor (`client.c`) -/
  | suitor
  /-- `logger_client <port> ...` on the host `ip` -/
  | logger (ip : IpAddr) (port : ℤ)
  deriving DecidableEq

/-- Where a datagram goes to. -/
inductive Dest where
  /-- the server's port, `sockfd` -/
  | main
  /-- the other socket of the server, `logfd` -/
  | log
  | other (a : Address)
  deriving DecidableEq

structure Packet where
  sender : Party
  src : Address
  dest : Dest
  payload : Text
  deriving DecidableEq

/-- Where the server is. -/
inductive Pc where
  /-- before the test of the loop -/
  | check
  /-- before `select` -/
  | select
  /-- before `check_heartbeats` -/
  | heart (log main : Bool)
  /-- before `recvfrom(logfd, ...)`; `main` says whether `sockfd` is ready too -/
  | log (main : Bool)
  /-- before `recvfrom(sockfd, ...)` -/
  | main
  /-- behind the loop: nothing is received any more -/
  | collected
  /-- a datagram has been stored behind the end of the array -/
  | overrun
  deriving DecidableEq

structure State where
  pc : Pc
  /-- the datagrams that have been recorded, `clients[0..received)` -/
  recorded : List Packet
  loggers : Table
  /-- the static variable of `check_heartbeats` -/
  lastCheck : ℕ
  /-- `time(NULL)` -/
  now : ℕ
  /-- the datagrams on the way -/
  inFlight : List Packet
  /-- the logger clients that have been started -/
  started : List (IpAddr × ℤ)

/-- The server at the time `now`, with the loggers of its command line. -/
def initial (cfg : Config) (now : ℕ) : State :=
  { pc := .check, recorded := [], loggers := cfg.loggers.foldl (fun t l => addLogger now t l.1 l.2) [],
    lastCheck := 0, now := now, inFlight := [], started := [] }

/-- The entry of a recorded datagram. -/
def Packet.client (p : Packet) : ClientData := ClientData.ofDatagram p.src p.payload

inductive Label where
  /-- a suitor sends its proposal -/
  | propose (src : Address) (proposal : Text)
  /-- a logger client is started, and registers from a socket with the port `src` -/
  | start (ip : IpAddr) (port : ℤ) (src : UInt16)
  /-- a logger client receives a datagram -/
  | logger (ip : IpAddr) (port : ℤ) (p : Packet)
  | lose (p : Packet)
  | duplicate (p : Packet)
  /-- time goes by -/
  | tick
  | select (r : Select)
  /-- `check_heartbeats`; `fails i` when `sendto` fails for entry `i` -/
  | heartbeats (fails : ℕ → Bool)
  /-- `recvfrom`, with the datagram or -1 -/
  | recvfrom (r : Option Packet) (fails : ℕ → Bool)
  /-- the test of the loop -/
  | go

/-- `REGISTER %d` -/
def registerText (port : ℤ) : Text := "REGISTER ".toList ++ fmtInt port

/-- The address that `logger_client <port>` on the host `ip` is bound to. -/
def boundTo (ip : IpAddr) (port : ℤ) : Address := ⟨ip, UInt16.ofInt port⟩

/-- The socket of `send_command`, which is closed again. -/
def registerPacket (ip : IpAddr) (port : ℤ) (src : UInt16) : Packet :=
  { sender := .logger ip port, src := ⟨ip, src⟩, dest := .main, payload := registerText port }

/-- The answer to a `PING`, which goes to where this came from. -/
def pongPacket (ip : IpAddr) (port : ℤ) : Packet :=
  { sender := .logger ip port, src := boundTo ip port, dest := .log, payload := "PONG".toList }

/-- What the server has sent. -/
def packets (logfd : Address) (l : List Send) : List Packet :=
  (l.filter Send.ok).map fun d => { sender := .server, src := logfd, dest := .other d.addr, payload := d.msg }

/-- `Proposal %d/%d from %s:%d: %s` -/
def proposalText (count : ℕ) (numClients : ℤ) (c : ClientData) : Text :=
  "Proposal ".toList ++ Nat.toDigits 10 count ++ '/' :: (fmtInt numClients ++ " from ".toList ++
    c.addr.text ++ ": ".toList ++ c.message)

/-- The rest of a round, when the socket for the loggers has been read. -/
def afterLog (main : Bool) : Pc := if main then .main else .check

variable (cfg : Config) (logfd : Address)

/-- The datagram `p` is stored, and the loggers are told. -/
def record (s : State) (p : Packet) (fails : ℕ → Bool) : State :=
  if s.recorded.length < maxClients then
    let r := sendToLoggers fails s.loggers (proposalText (s.recorded.length + 1) cfg.numClients p.client)
    { s with
      pc := .check
      recorded := s.recorded ++ [p]
      loggers := r.1
      inFlight := s.inFlight ++ packets logfd r.2 }
  else { s with pc := .overrun }

/-- A step of the server, of a client, or of the network; `logfd` is the address that the
    kernel has given to that socket. -/
def step (s : State) : Label → Option State
  | .propose src proposal =>
    some { s with inFlight := { sender := .suitor, src := src, dest := .main, payload := proposal } :: s.inFlight }
  | .start ip port src =>
    if s.started.any fun l => boundTo l.1 l.2 == boundTo ip port then none
    else some { s with started := (ip, port) :: s.started, inFlight := registerPacket ip port src :: s.inFlight }
  | .logger ip port p =>
    if (ip, port) ∈ s.started ∧ p ∈ s.inFlight ∧ p.dest = .other (boundTo ip port) then
      let rest := s.inFlight.erase p
      if received p.payload = "PING".toList then some { s with inFlight := pongPacket ip port :: rest }
      else some { s with inFlight := rest }
    else none
  | .lose p => if p ∈ s.inFlight then some { s with inFlight := s.inFlight.erase p } else none
  | .duplicate p => if p ∈ s.inFlight then some { s with inFlight := p :: s.inFlight } else none
  | .tick => some { s with now := s.now + 1 }
  | .select r =>
    match s.pc, r with
    | .select, .error => some { s with pc := .collected }
    | .select, .eintr | .select, .timeout => some { s with pc := .heart false false }
    | .select, .ready main log => some { s with pc := .heart log main }
    | _, _ => none
  | .heartbeats fails =>
    match s.pc with
    | .heart log main =>
      let r := checkHeartbeats s.now fails s.lastCheck s.loggers
      some { s with
        pc := if log then .log main else afterLog main
        loggers := r.1
        lastCheck := r.2.1
        inFlight := s.inFlight ++ packets logfd r.2.2 }
    | _ => none
  | .recvfrom none _ =>
    match s.pc with
    | .log main => some { s with pc := afterLog main }
    | .main => some { s with pc := .check }
    | _ => none
  | .recvfrom (some p) fails =>
    match s.pc with
    | .log main =>
      if p ∈ s.inFlight ∧ p.dest = .log then
        let s := { s with pc := afterLog main, inFlight := s.inFlight.erase p }
        if p.payload.length > 0 then
          let r := handleLoggerCommand s.now s.loggers (received p.payload) p.src
          some { s with
            loggers := r.1
            inFlight := s.inFlight ++ packets logfd (r.2.map fun d => { addr := d.1, msg := d.2, ok := !fails 0 }) }
        else some s
      else none
    | .main =>
      if p ∈ s.inFlight ∧ p.dest = .main then
        let s := { s with pc := .check, inFlight := s.inFlight.erase p }
        if p.payload.length > 0 then some (record cfg logfd s p fails) else some s
      else none
    | _ => none
  | .go =>
    match s.pc with
    | .check =>
      if s.recorded.length < cfg.numClients then some { s with pc := .select }
      else some { s with pc := .collected }
    | _ => none

def system (now : ℕ) : System State Label := ofFn (initial cfg now) (step cfg logfd)

/-! ## The property -/

/-- The registration of the logger client. -/
def IsRegister (p : Packet) (ip : IpAddr) (port : ℤ) : Prop :=
  p.sender = .logger ip port ∧ p.payload = registerText port

/-- The address is in the table, as active. -/
def Registered (t : Table) (a : Address) : Prop := ∃ l ∈ t, l.addr = a ∧ l.active = true

/-- The proposals that are recorded are those of suitors, and each registration that is
    received puts the logger into the table. -/
structure Kept (tr : List (State × Label)) (s : State) : Prop where
  suitors : ∀ p ∈ s.recorded, p.sender = .suitor
  registers : ∀ x ∈ tr, ∀ p fails ip port s', x.2 = .recvfrom (some p) fails → IsRegister p ip port →
    step cfg logfd x.1 x.2 = some s' → Registered s'.loggers (boundTo ip port)
  inBounds : s.pc ≠ .overrun

/-- A registration is received at the socket for the proposals. -/
def Misread (s : State) (a : Label) : Prop :=
  ∃ p fails ip port, a = .recvfrom (some p) fails ∧ s.pc = .main ∧ IsRegister p ip port

/-- A datagram is received there when the array is full. -/
def Overflows (s : State) (a : Label) : Prop :=
  ∃ p fails, a = .recvfrom (some p) fails ∧ s.pc = .main ∧ p.payload.length > 0 ∧ maxClients ≤ s.recorded.length

/-! ## The steps -/

variable {cfg logfd} {s s' : State} {a : Label} {tr : List (State × Label)} {now : ℕ}

/-- What a step does to the array. -/
inductive Change (s s' : State) (a : Label) : Prop
  | quiet : s'.recorded = s.recorded → (s'.pc = .overrun ↔ s.pc = .overrun) → ¬ Misread s a → ¬ Overflows s a →
      Change s s' a
  | record {p : Packet} {fails : ℕ → Bool} : a = .recvfrom (some p) fails → s.pc = .main → p ∈ s.inFlight →
      p.dest = .main → s.recorded.length < maxClients → s'.recorded = s.recorded ++ [p] → s'.pc = .check →
      Change s s' a
  | overrun : Overflows s a → s'.recorded = s.recorded → s'.pc = .overrun → Change s s' a

/-- A step that is no receipt at the socket for the proposals. -/
theorem Change.of_ne (hrec : s'.recorded = s.recorded) (hpc : s'.pc = .overrun ↔ s.pc = .overrun)
    (h : ∀ p fails, a = .recvfrom (some p) fails → s.pc ≠ .main) : Change s s' a := by
  refine .quiet hrec hpc ?_ ?_
  · rintro ⟨p, fails, -, -, ha, hmain, -⟩
    exact h p fails ha hmain
  · rintro ⟨p, fails, ha, hmain, -⟩
    exact h p fails ha hmain

theorem afterLog_ne (main : Bool) : afterLog main ≠ .overrun := by
  cases main <;> simp [afterLog]

theorem registerText_ne_nil (port : ℤ) : registerText port ≠ [] := by
  unfold registerText
  simp

theorem registerText_ne_pong (port : ℤ) : registerText port ≠ "PONG".toList := by
  unfold registerText
  simp

theorem step_change (h : step cfg logfd s a = some s') : Change s s' a := by
  cases a with
  | propose src proposal =>
    cases h
    exact .of_ne rfl Iff.rfl (fun _ _ h => by cases h)
  | start ip port src =>
    simp only [step] at h
    split_ifs at h
    cases h
    exact .of_ne rfl Iff.rfl (fun _ _ h => by cases h)
  | logger ip port p =>
    simp only [step] at h
    split_ifs at h <;> cases h <;> exact .of_ne rfl Iff.rfl (fun _ _ h => by cases h)
  | lose p | duplicate p =>
    simp only [step] at h
    split_ifs at h
    cases h
    exact .of_ne rfl Iff.rfl (fun _ _ h => by cases h)
  | tick =>
    cases h
    exact .of_ne rfl Iff.rfl (fun _ _ h => by cases h)
  | select r =>
    simp only [step] at h
    split at h <;> cases h <;> exact .of_ne rfl (by simp [*]) (fun _ _ h => by cases h)
  | heartbeats fails =>
    simp only [step] at h
    split at h
    · next log main hpc =>
      cases h
      refine .of_ne rfl ?_ (fun _ _ h => by cases h)
      cases log <;> simp [hpc, afterLog_ne]
    · cases h
  | recvfrom r fails =>
    cases r with
    | none =>
      simp only [step] at h
      split at h
      · next main hpc =>
        cases h
        exact .of_ne rfl (by simp [hpc, afterLog_ne]) (fun _ _ h => by cases h)
      · next hpc =>
        cases h
        exact .of_ne rfl (by simp [hpc]) (fun _ _ h => by cases h)
      · cases h
    | some p =>
      simp only [step] at h
      split at h
      · next main hpc =>
        split_ifs at h <;> cases h <;>
          exact .of_ne rfl (by simp [hpc, afterLog_ne]) (fun _ _ _ => by simp [hpc])
      · next hpc =>
        split_ifs at h with hp hlen
        · rw [record] at h
          split_ifs at h with hmax
          · cases h
            exact .record rfl hpc hp.1 hp.2 hmax rfl rfl
          · cases h
            exact .overrun ⟨p, fails, rfl, hpc, hlen, not_lt.1 hmax⟩ rfl rfl
        · -- an empty datagram is no registration
          cases h
          refine .quiet rfl (by simp [hpc]) ?_ ?_
          · rintro ⟨p', fails', ip, port, ha, -, -, hreg⟩
            cases ha
            rw [hreg] at hlen
            exact hlen (List.length_pos_iff.2 (registerText_ne_nil port))
          · rintro ⟨p', fails', ha, -, hpos, -⟩
            cases ha
            exact hlen hpos
      · cases h
  | go =>
    simp only [step] at h
    split at h
    · next hpc =>
      split_ifs at h <;> cases h <;> exact .of_ne rfl (by simp [hpc]) (fun _ _ h => by cases h)
    · cases h

/-! ## What is on the way -/

/-- To the port of the server go proposals and registrations, to its other socket the
    answers to `PING`. -/
def Sound (p : Packet) : Prop :=
  match p.dest with
  | .main => p.sender = .suitor ∨ ∃ ip port, IsRegister p ip port
  | .log => p.payload = "PONG".toList
  | .other _ => True

def Net (s : State) : Prop := ∀ p ∈ s.inFlight, Sound p

theorem sound_packets {l : List Send} {p : Packet} (h : p ∈ packets logfd l) : Sound p := by
  obtain ⟨d, -, rfl⟩ := List.mem_map.1 h
  trivial

theorem Net.cons (h : Net s) {p : Packet} (hp : Sound p) (heq : s'.inFlight = p :: s.inFlight) : Net s' := by
  intro q hq
  rw [heq] at hq
  rcases List.mem_cons.1 hq with rfl | hq
  · exact hp
  · exact h q hq

theorem Net.erase (h : Net s) {p : Packet} (heq : s'.inFlight = s.inFlight.erase p) : Net s' := by
  intro q hq
  rw [heq] at hq
  exact h q (List.mem_of_mem_erase hq)

theorem Net.append (h : Net s) {l : List Send} (heq : s'.inFlight = s.inFlight ++ packets logfd l) : Net s' := by
  intro q hq
  rw [heq] at hq
  rcases List.mem_append.1 hq with hq | hq
  · exact h q hq
  · exact sound_packets hq

theorem net_inductive : (system cfg logfd now).Inductive Net := by
  refine ⟨?_, fun s a s' hi hs => ?_⟩
  · rintro s rfl
    exact fun p hp => absurd hp List.not_mem_nil
  · replace hs : step cfg logfd s a = some s' := hs
    cases a with
    | propose src proposal =>
      cases hs
      exact hi.cons (p := { sender := .suitor, src := src, dest := .main, payload := proposal }) (.inl rfl) rfl
    | start ip port src =>
      simp only [step] at hs
      split_ifs at hs
      cases hs
      exact hi.cons (p := registerPacket ip port src) (.inr ⟨ip, port, rfl, rfl⟩) rfl
    | logger ip port p =>
      simp only [step] at hs
      split_ifs at hs <;> cases hs
      · have hrest : Net { s with inFlight := s.inFlight.erase p } := hi.erase rfl
        exact hrest.cons (p := pongPacket ip port) rfl rfl
      · exact hi.erase rfl
    | lose p =>
      simp only [step] at hs
      split_ifs at hs
      cases hs
      exact hi.erase rfl
    | duplicate p =>
      simp only [step] at hs
      split_ifs at hs with hp
      cases hs
      exact hi.cons (hi p hp) rfl
    | tick =>
      cases hs
      exact hi
    | select r =>
      simp only [step] at hs
      split at hs <;> cases hs <;> exact hi
    | heartbeats fails =>
      simp only [step] at hs
      split at hs
      · cases hs
        exact hi.append rfl
      · cases hs
    | recvfrom r fails =>
      cases r with
      | none =>
        simp only [step] at hs
        split at hs <;> cases hs <;> exact hi
      | some p =>
        have hrest : Net { s with inFlight := s.inFlight.erase p } := hi.erase rfl
        simp only [step] at hs
        split at hs
        · split_ifs at hs <;> cases hs
          · exact hrest.append rfl
          · exact hrest
        · split_ifs at hs
          · rw [record] at hs
            split_ifs at hs <;> cases hs
            · exact hrest.append rfl
            · exact hrest
          · cases hs
            exact hrest
        · cases hs
    | go =>
      simp only [step] at hs
      split at hs
      · split_ifs at hs <;> cases hs <;> exact hi
      · cases hs

/-! ## The condition -/

/-- A registration that is received is received at the socket for the proposals. -/
theorem misread_of_register (hnet : Net s) {p : Packet} {fails : ℕ → Bool} {ip : IpAddr} {port : ℤ}
    (hs : step cfg logfd s (.recvfrom (some p) fails) = some s') (hreg : IsRegister p ip port) :
    Misread s (.recvfrom (some p) fails) := by
  refine ⟨p, fails, ip, port, rfl, ?_, hreg⟩
  simp only [step] at hs
  split at hs
  · by_cases hp : p ∈ s.inFlight ∧ p.dest = .log
    · -- what arrives there are answers to `PING`
      have hsound := hnet p hp.1
      simp only [Sound, hp.2] at hsound
      exact absurd (hreg.2.symm.trans hsound) (registerText_ne_pong port)
    · rw [if_neg hp] at hs
      cases hs
  · next hpc => exact hpc
  · cases hs

/-- What a step adds to the property. -/
theorem kept_snoc (hnet : Net s) (hs : step cfg logfd s a = some s') :
    Kept cfg logfd (tr ++ [(s, a)]) s' ↔ Kept cfg logfd tr s ∧ ¬ Misread s a ∧ ¬ Overflows s a := by
  -- when nothing is misread, the last step receives no registration
  have hlast : ¬ Misread s a → (∀ x ∈ tr, ∀ p fails ip port s', x.2 = .recvfrom (some p) fails →
      IsRegister p ip port → step cfg logfd x.1 x.2 = some s' → Registered s'.loggers (boundTo ip port)) →
      ∀ x ∈ tr ++ [(s, a)], ∀ p fails ip port s', x.2 = .recvfrom (some p) fails → IsRegister p ip port →
        step cfg logfd x.1 x.2 = some s' → Registered s'.loggers (boundTo ip port) := by
    intro hm hreg x hx p fails ip port t ha hp ht
    rcases List.mem_append.1 hx with hx | hx
    · exact hreg x hx p fails ip port t ha hp ht
    · obtain rfl := List.mem_singleton.1 hx
      simp only at ha ht
      subst ha
      exact absurd (misread_of_register hnet ht hp) hm
  cases step_change hs with
  | quiet hrec hpc hm ho =>
    constructor
    · rintro ⟨hsuit, hreg, hin⟩
      exact ⟨⟨hrec ▸ hsuit, fun x hx => hreg x (List.mem_append_left _ hx), fun h => hin (hpc.2 h)⟩, hm, ho⟩
    · rintro ⟨⟨hsuit, hreg, hin⟩, -, -⟩
      exact ⟨hrec ▸ hsuit, hlast hm hreg, fun h => hin (hpc.1 h)⟩
  | @record p fails ha hpc hp hdest hlt hrec hpc' =>
    constructor
    · rintro ⟨hsuit, hreg, -⟩
      rw [hrec] at hsuit
      refine ⟨⟨fun q hq => hsuit q (List.mem_append_left _ hq), fun x hx => hreg x (List.mem_append_left _ hx),
        by rw [hpc]; simp⟩, ?_, ?_⟩
      · rintro ⟨q, fails', ip, port, hq, -, hsender, -⟩
        obtain ⟨rfl, -⟩ : q = p ∧ fails' = fails := by simpa [ha, eq_comm] using hq
        have := hsuit q (List.mem_append_right _ List.mem_cons_self)
        rw [hsender] at this
        cases this
      · rintro ⟨q, fails', -, -, -, hge⟩
        omega
    · rintro ⟨⟨hsuit, hreg, -⟩, hm, -⟩
      refine ⟨fun q hq => ?_, hlast hm hreg, by rw [hpc']; simp⟩
      rw [hrec] at hq
      rcases List.mem_append.1 hq with hq | hq
      · exact hsuit q hq
      · obtain rfl := List.mem_singleton.1 hq
        have hsound := hnet q hp
        simp only [Sound, hdest] at hsound
        exact hsound.resolve_right fun ⟨ip, port, h⟩ => hm ⟨q, fails, ip, port, ha, hpc, h⟩
  | overrun ho _ hpc' =>
    constructor
    · exact fun hk => absurd hpc' hk.inBounds
    · exact fun h => absurd ho h.2.2

/-- **When the registrations are kept.**  The proposals recorded are the suitors', and the
    registrations received are in the table, iff no registration is received, and there
    is no datagram too many: a registration comes to the socket for the proposals,
    where the server does not look for commands. -/
theorem kept_iff (h : (system cfg logfd now).Exec tr s) :
    Kept cfg logfd tr s ↔ ∀ x ∈ tr, ¬ Misread x.1 x.2 ∧ ¬ Overflows x.1 x.2 := by
  induction h with
  | init hi =>
    cases hi
    refine ⟨fun _ x hx => absurd hx List.not_mem_nil, fun _ => ⟨?_, ?_, ?_⟩⟩
    · exact fun p hp => absurd hp List.not_mem_nil
    · exact fun x hx => absurd hx List.not_mem_nil
    · simp [initial]
  | @snoc tr s a s' he hs ih =>
    rw [kept_snoc (net_inductive.reachable ⟨tr, he⟩) hs, ih, List.forall_mem_append, List.forall_mem_singleton]

/-- A server for two suitors. -/
def pair : Config := { numClients := 2, loggers := [] }

def localhost : IpAddr := ⟨127, 0, 0, 1⟩

/-- The port that the kernel gives to `logfd`. -/
def pairLog : Address := ⟨localhost, 50000⟩

/-- A logger client for the port 9000 registers, and the server receives it. -/
def registerRun : List Label :=
  [.start localhost 9000 40000, .go, .select (.ready true false), .heartbeats fun _ => false,
    .recvfrom (some (registerPacket localhost 9000 40000)) fun _ => false]

theorem not_kept : ¬ ∀ (cfg : Config) (logfd : Address) (now : ℕ) (tr : List (State × Label)) (s : State),
    (system cfg logfd now).Exec tr s → Kept cfg logfd tr s := by
  intro hall
  obtain ⟨s, -, he, hp⟩ := exec_of_any (initial pair 1000) (step pair pairLog) registerRun
    (fun s => s.recorded == [registerPacket localhost 9000 40000]) (by decide +kernel)
  have hk := (hall _ _ _ _ s he).suitors
  rw [beq_iff_eq.1 hp] at hk
  exact absurd (hk _ List.mem_cons_self) (by simp [registerPacket])

theorem kept_iff_register : ∃ tr s, (system pair pairLog 1000).Exec tr s ∧ tr.length = 5 ∧
    (Kept pair pairLog tr s ↔ ∀ x ∈ tr, ¬ Misread x.1 x.2 ∧ ¬ Overflows x.1 x.2) := by
  obtain ⟨s, -, he, -⟩ := exec_of_any (initial pair 1000) (step pair pairLog) registerRun
    (fun s => s.recorded == [registerPacket localhost 9000 40000]) (by decide +kernel)
  exact ⟨_, s, he, rfl, kept_iff he⟩

end Students.V9
