/-
  The TCP echo of seminar 11: a client and `HandleTCPClient` of its server, with the bytes that
  are on their way in the two directions of the connection.
-/
import OsCourse.Lib.Text
import OsCourse.Lib.Transition

namespace Echo

open Transition System Text

/-- `RCVBUFSIZE` of the clients and of the server -/
def rcvBufSize : ℕ := 32

/-! ## The programs -/

/-- What differs between the clients: how often the echo string is sent, and what is printed
    before the echo of round `i`. -/
structure Client where
  rounds : ℕ
  heading : ℕ → Text

/-- TCPEchoClient.c -/
def tcpEchoClient : Client where
  rounds := 1
  heading := fun _ => "Received: ".toList

/-- TCPEchoClientLoop.c -/
def tcpEchoClientLoop : Client where
  rounds := 10
  heading := fun i => fmtInt i ++ ") Received: ".toList

/-- Where `main` of the client is, in round `i`. -/
inductive ClientPc where
  /-- in `send`, with the bytes that the connection has not taken yet -/
  | sending (i : ℕ) (rest : Text)
  /-- at `while (totalBytesRcvd < echoStringLen)` -/
  | receiving (i total : ℕ)
  /-- before `close(sock)` -/
  | closing
  | finished
  /-- in `DieWithError` -/
  | died
  deriving DecidableEq

/-- Where `HandleTCPClient` is. -/
inductive ServerPc where
  /-- in `recv` -/
  | receiving
  /-- in `send`, with the bytes that the connection has not taken yet -/
  | sending (rest : Text)
  | closed
  | died
  deriving DecidableEq

structure State where
  client : ClientPc
  server : ServerPc
  /-- the bytes on their way to the server, and back -/
  toServer : Text
  toClient : Text
  /-- what the client has printed -/
  printed : Text

inductive Act where
  /-- a step of the client; `m` is what `recv` returns, if that is the step -/
  | client (m : ℕ)
  | server (m : ℕ)
  /-- a call of the client returns an error -/
  | clientFails
  | serverFails
  deriving DecidableEq

/-- The echo string, which is an argument of `main`, the client, and how many bytes each
    direction of the connection can hold. -/
structure Setting where
  echoString : Text
  client : Client
  toServerCap : ℕ
  toClientCap : ℕ
  noNul : nul ∉ echoString
  toServerCap_pos : 0 < toServerCap
  toClientCap_pos : 0 < toClientCap

variable (S : Setting)

/-- At the head of the loop over the rounds. -/
def top (i : ℕ) : ClientPc := if i < S.client.rounds then .sending i S.echoString else .closing

def initial : State where
  client := top S 0
  server := .receiving
  toServer := []
  toClient := []
  printed := []

/-- `recv` with a buffer of `size` bytes: some of the bytes that are there, and at least one. -/
def recv (size m : ℕ) (bytes : Text) : Option (Text × Text) :=
  if 0 < m ∧ m ≤ size ∧ m ≤ bytes.length then some (bytes.take m, bytes.drop m) else none

/-- The client has closed its end. -/
def ClientPc.closed : ClientPc → Bool
  | .finished | .died => true
  | _ => false

def ServerPc.isClosed : ServerPc → Bool
  | .closed | .died => true
  | _ => false

def stepClient (m : ℕ) (s : State) : Option State :=
  match s.client with
  | .sending i (b :: rest) =>
    if s.toServer.length < S.toServerCap then
      some { s with toServer := s.toServer ++ [b], client := .sending i rest }
    else none
  | .sending i [] => some { s with printed := s.printed ++ S.client.heading i, client := .receiving i 0 }
  | .receiving i total =>
    if total < S.echoString.length then
      if s.toClient = [] then
        -- `recv` returns 0 when the server has closed its end, and waits as long as it has not
        if s.server.isClosed then some { s with client := .died } else none
      else
        (recv (rcvBufSize - 1) m s.toClient).map fun r =>
          { s with toClient := r.2
                   -- `echoBuffer[bytesRcvd] = '\0'` and `printf("%s", echoBuffer)`
                   printed := s.printed ++ cstr (r.1 ++ [nul])
                   client := .receiving i (total + r.1.length) }
    else some { s with printed := s.printed ++ ['\n'], client := top S (i + 1) }
  | .closing => some { s with client := .finished }
  | .finished | .died => none

def stepServer (m : ℕ) (s : State) : Option State :=
  match s.server with
  | .receiving =>
    if s.toServer = [] then
      if s.client.closed then some { s with server := .closed } else none
    else (recv rcvBufSize m s.toServer).map fun r => { s with toServer := r.2, server := .sending r.1 }
  | .sending (b :: rest) =>
    if s.toClient.length < S.toClientCap then
      some { s with toClient := s.toClient ++ [b], server := .sending rest }
    else none
  | .sending [] => some { s with server := .receiving }
  | .closed | .died => none

def step (s : State) : Act → Option State
  | .client m => stepClient S m s
  | .server m => stepServer S m s
  | .clientFails => if s.client.closed then none else some { s with client := .died }
  | .serverFails => if s.server.isClosed then none else some { s with server := .died }

def system : System State Act := ofFn (initial S) (step S)

/-! ## What is printed -/

/-- What the client prints in its first `i` rounds. -/
def transcript (i : ℕ) : Text :=
  (List.range i).flatMap fun j => S.client.heading j ++ S.echoString ++ ['\n']

/-- The bytes that the client has still to hand over. -/
def ClientPc.unsent : ClientPc → Text
  | .sending _ rest => rest
  | _ => []

/-- The bytes that the server has received and not sent back yet. -/
def ServerPc.held : ServerPc → Text
  | .sending rest => rest
  | _ => []

/-- In round `i`, `total` bytes have come back: the others are on their way, in order.  Only a
    server that has died has lost some. -/
def Round (s : State) (i total : ℕ) : Prop :=
  i < S.client.rounds ∧ total ≤ S.echoString.length ∧ ∃ lost, (s.server ≠ .died → lost = []) ∧
    S.echoString.drop total = s.toClient ++ (s.server.held ++ (lost ++ (s.toServer ++ s.client.unsent)))

/-- Nothing is on its way. -/
def Quiet (s : State) : Prop := s.toClient = [] ∧ s.server.held = [] ∧ s.toServer = []

/-- What holds where the client is. -/
def Place (s : State) : Prop :=
  match s.client with
  | .sending i _ => Round S s i 0 ∧ s.printed = transcript S i
  | .receiving i total =>
    Round S s i total ∧ s.printed = transcript S i ++ (S.client.heading i ++ S.echoString.take total)
  | .closing | .finished => Quiet s ∧ s.printed = transcript S S.client.rounds
  | .died => s.printed <+: transcript S S.client.rounds

structure Inv (s : State) : Prop where
  place : Place S s
  closed : s.server = .closed → s.client.closed = true

variable {S} {s s' : State} {i total m : ℕ}

theorem transcript_succ (i : ℕ) :
    transcript S (i + 1) = transcript S i ++ (S.client.heading i ++ S.echoString ++ ['\n']) := by
  simp [transcript, List.range_succ]

theorem transcript_mono {j : ℕ} (h : i ≤ j) : transcript S i <+: transcript S j := by
  induction h with
  | refl => exact List.prefix_rfl
  | step _ ih => exact ih.trans ⟨_, (transcript_succ _).symm⟩

/-- The beginning of a round. -/
theorem place_top (hquiet : Quiet s) (hclient : s.client = top S i) (hi : i ≤ S.client.rounds)
    (hprinted : s.printed = transcript S i) : Place S s := by
  unfold top at hclient
  unfold Place
  split_ifs at hclient with hlt
  · rw [hclient]
    refine ⟨⟨hlt, Nat.zero_le _, [], fun _ => rfl, ?_⟩, hprinted⟩
    rw [hquiet.1, hquiet.2.1, hquiet.2.2, hclient]
    rfl
  · rw [hclient]
    refine ⟨hquiet, ?_⟩
    rw [hprinted, Nat.le_antisymm hi (Nat.le_of_not_lt hlt)]

theorem inv_initial (S : Setting) : Inv S (initial S) where
  place := place_top ⟨rfl, rfl, rfl⟩ rfl (Nat.zero_le _) rfl
  closed := fun h => by cases h

/-- Whatever has been printed is a beginning of the transcript. -/
theorem Place.beginning (h : Place S s) : s.printed <+: transcript S S.client.rounds := by
  unfold Place at h
  split at h
  case h_1 =>
    rw [h.2]
    exact transcript_mono h.1.1.le
  case h_2 i total _ =>
    obtain ⟨⟨hi, -, -⟩, hprinted⟩ := h
    rw [hprinted]
    refine List.IsPrefix.trans ?_ (transcript_mono hi)
    rw [transcript_succ, List.prefix_append_right_inj, List.append_assoc, List.prefix_append_right_inj]
    exact (List.take_prefix _ _).trans (List.prefix_append _ _)
  case h_3 | h_4 => exact ⟨[], by rw [List.append_nil, h.2]⟩
  case h_5 => exact h

theorem recv_eq_some {size : ℕ} {bytes : Text} {r : Text × Text} (h : recv size m bytes = some r) :
    r.1 ++ r.2 = bytes ∧ 0 < r.1.length ∧ r.1.length ≤ size := by
  unfold recv at h
  split_ifs at h with hm
  cases h
  refine ⟨List.take_append_drop m bytes, ?_, ?_⟩
  · rw [List.length_take]
    omega
  · exact (List.length_take_le m bytes).trans hm.2.1

/-- The client hands a byte over. -/
theorem Round.send {b : Char} {rest : Text} (h : Round S s i 0) (hclient : s.client = .sending i (b :: rest)) :
    Round S { s with toServer := s.toServer ++ [b], client := .sending i rest } i 0 := by
  obtain ⟨hi, htotal, lost, hlost, hbytes⟩ := h
  refine ⟨hi, htotal, lost, hlost, ?_⟩
  rw [hclient] at hbytes
  rw [hbytes]
  simp [ClientPc.unsent]

/-- The client receives bytes: they are the next ones of the echo string. -/
theorem Round.receive {bytes rest : Text} (h : Round S s i total) (hclient : s.client = .receiving i total)
    (hbytes : bytes ++ rest = s.toClient) :
    Round S { s with toClient := rest, client := .receiving i (total + bytes.length) } i (total + bytes.length) ∧
      S.echoString.take (total + bytes.length) = S.echoString.take total ++ bytes := by
  obtain ⟨hi, htotal, lost, hlost, hdrop⟩ := h
  rw [hclient, ← hbytes, List.append_assoc] at hdrop
  have hlen := congrArg List.length hdrop
  rw [List.length_drop, List.length_append] at hlen
  refine ⟨⟨hi, by omega, lost, hlost, ?_⟩, ?_⟩
  · rw [← List.drop_drop, hdrop, List.drop_left]
    rfl
  · rw [List.take_add, hdrop, List.take_left]

/-- When all bytes have come back, nothing is on its way. -/
theorem Round.quiet (h : Round S s i total) (hdone : S.echoString.length ≤ total) : Quiet s := by
  obtain ⟨-, -, lost, -, hdrop⟩ := h
  rw [List.drop_eq_nil_of_le hdone, eq_comm] at hdrop
  simp only [List.append_eq_nil_iff] at hdrop
  exact ⟨hdrop.1, hdrop.2.1, hdrop.2.2.2.1⟩

theorem Inv.stepClient (h : Inv S s) (hs : stepClient S m s = some s') : Inv S s' := by
  have hplace := h.place
  have hopen : s.client.closed = false → s'.server = s.server → s'.server = .closed → s'.client.closed = true := by
    intro hc hserver hclosed
    have := h.closed (hserver ▸ hclosed)
    rw [hc] at this
    cases this
  unfold Echo.stepClient at hs
  unfold Place at hplace
  split at hs
  case h_1 i b rest hpc =>
    split_ifs at hs
    cases hs
    rw [hpc] at hplace
    exact ⟨⟨hplace.1.send hpc, hplace.2⟩, hopen (by rw [hpc]; rfl) rfl⟩
  case h_2 i hpc =>
    cases hs
    rw [hpc] at hplace
    obtain ⟨⟨hi, htotal, hlost⟩, hprinted⟩ := hplace
    rw [hpc] at hlost
    refine ⟨⟨⟨hi, htotal, hlost⟩, ?_⟩, hopen (by rw [hpc]; rfl) rfl⟩
    show s.printed ++ S.client.heading i = _
    rw [hprinted, List.take_zero, List.append_nil]
  case h_3 i total hpc =>
    rw [hpc] at hplace
    obtain ⟨hround, hprinted⟩ := hplace
    split_ifs at hs with htotal hempty hserver
    · cases hs
      refine ⟨?_, fun _ => rfl⟩
      exact h.place.beginning
    · obtain ⟨r, hr, rfl⟩ := Option.map_eq_some_iff.1 hs
      obtain ⟨hbytes, -, -⟩ := recv_eq_some hr
      obtain ⟨hround', htake⟩ := hround.receive hpc hbytes
      have hnul : nul ∉ r.1 := by
        intro hmem
        have : nul ∈ S.echoString.take (total + r.1.length) := by
          rw [htake]
          exact List.mem_append_right _ hmem
        exact S.noNul (List.mem_of_mem_take this)
      refine ⟨⟨hround', ?_⟩, hopen (by rw [hpc]; rfl) rfl⟩
      show s.printed ++ cstr (r.1 ++ [nul]) = _
      rw [cstr_append_cons _ _ hnul, hprinted, htake]
      simp
    · cases hs
      have hle : S.echoString.length ≤ total := Nat.le_of_not_lt htotal
      refine ⟨place_top (hround.quiet hle) rfl hround.1 ?_, hopen (by rw [hpc]; rfl) rfl⟩
      show s.printed ++ ['\n'] = _
      rw [hprinted, transcript_succ, List.take_of_length_le hle]
      simp
  case h_4 hpc =>
    cases hs
    rw [hpc] at hplace
    exact ⟨hplace, fun _ => rfl⟩
  case h_5 | h_6 => cases hs

/-- A step that leaves the client where it is, and the bytes on their way as they are. -/
theorem Place.server (h : Place S s) (hclient : s'.client = s.client) (hprinted : s'.printed = s.printed)
    (hround : ∀ i total, Round S s i total → Round S s' i total) (hquiet : Quiet s → Quiet s') : Place S s' := by
  unfold Place at h ⊢
  rw [hclient, hprinted]
  split at h
  case h_1 => exact ⟨hround _ _ h.1, h.2⟩
  case h_2 => exact ⟨hround _ _ h.1, h.2⟩
  case h_3 | h_4 => exact ⟨hquiet h.1, h.2⟩
  case h_5 => exact h

theorem Inv.stepServer (h : Inv S s) (hs : stepServer S m s = some s') : Inv S s' := by
  unfold Echo.stepServer at hs
  split at hs
  case h_1 hpc =>
    split_ifs at hs with hempty hclosed
    · cases hs
      refine ⟨h.place.server rfl rfl ?_ ?_, fun _ => hclosed⟩
      · rintro i total ⟨hi, htotal, lost, hlost, hdrop⟩
        refine ⟨hi, htotal, lost, fun _ => hlost (by rw [hpc]; decide), ?_⟩
        rw [hpc] at hdrop
        exact hdrop
      · rintro ⟨htoClient, -, htoServer⟩
        exact ⟨htoClient, rfl, htoServer⟩
    · obtain ⟨r, hr, rfl⟩ := Option.map_eq_some_iff.1 hs
      obtain ⟨hbytes, -, -⟩ := recv_eq_some hr
      refine ⟨h.place.server rfl rfl ?_ ?_, fun hclosed => by cases hclosed⟩
      · rintro i total ⟨hi, htotal, lost, hlost, hdrop⟩
        obtain rfl := hlost (by rw [hpc]; decide)
        refine ⟨hi, htotal, [], fun _ => rfl, ?_⟩
        rw [hpc, ← hbytes] at hdrop
        rw [hdrop]
        simp [ServerPc.held]
      · intro hquiet
        exact absurd hquiet.2.2 hempty
  case h_2 b rest hpc =>
    split_ifs at hs
    cases hs
    refine ⟨h.place.server rfl rfl ?_ ?_, fun hclosed => by cases hclosed⟩
    · rintro i total ⟨hi, htotal, lost, hlost, hdrop⟩
      refine ⟨hi, htotal, lost, fun _ => hlost (by rw [hpc]; exact fun h => by cases h), ?_⟩
      rw [hpc] at hdrop
      rw [hdrop]
      simp [ServerPc.held]
    · rintro ⟨-, hheld, -⟩
      rw [hpc] at hheld
      cases hheld
  case h_3 hpc =>
    cases hs
    refine ⟨h.place.server rfl rfl ?_ ?_, fun hclosed => by cases hclosed⟩
    · rintro i total ⟨hi, htotal, lost, hlost, hdrop⟩
      refine ⟨hi, htotal, lost, fun _ => hlost (by rw [hpc]; exact fun h => by cases h), ?_⟩
      rw [hpc] at hdrop
      exact hdrop
    · rintro ⟨htoClient, -, htoServer⟩
      exact ⟨htoClient, rfl, htoServer⟩
  case h_4 | h_5 => cases hs

theorem Inv.step (h : Inv S s) {a : Act} (hs : step S s a = some s') : Inv S s' := by
  cases a with
  | client m => exact h.stepClient hs
  | server m => exact h.stepServer hs
  | clientFails =>
    simp only [Echo.step] at hs
    split_ifs at hs
    cases hs
    exact ⟨h.place.beginning, fun _ => rfl⟩
  | serverFails =>
    simp only [Echo.step] at hs
    split_ifs at hs with hopen
    cases hs
    refine ⟨h.place.server rfl rfl ?_ ?_, fun hclosed => by cases hclosed⟩
    · -- what the server has held is lost
      rintro i total ⟨hi, htotal, lost, hlost, hdrop⟩
      exact ⟨hi, htotal, s.server.held ++ lost, fun hne => absurd rfl hne, by rw [hdrop]; simp [ServerPc.held]⟩
    · rintro ⟨htoClient, -, htoServer⟩
      exact ⟨htoClient, rfl, htoServer⟩

theorem inv_of_reachable (h : (system S).Reachable s) : Inv S s := by
  have hind : (system S).Inductive (Inv S) :=
    ⟨fun s hs => by rw [show s = initial S from hs]; exact inv_initial S, fun s a s' hinv hs => hinv.step hs⟩
  exact hind.reachable h

/-- **The echo.**  However TCP cuts the bytes, and whatever calls fail, the client prints a
    beginning of its transcript; when it has come to its end, it has printed all of it. -/
theorem echoes (S : Setting) {s : State} (h : (system S).Reachable s) :
    s.printed <+: transcript S S.client.rounds ∧
      (s.client = .finished → s.printed = transcript S S.client.rounds) := by
  have hplace := (inv_of_reachable h).place
  refine ⟨hplace.beginning, fun hfinished => ?_⟩
  simp only [Place, hfinished] at hplace
  exact hplace.2

/-- The word `abc` over a connection that holds two bytes in each direction. -/
def settingOfAbc : Setting where
  echoString := ['a', 'b', 'c']
  client := tcpEchoClient
  toServerCap := 2
  toClientCap := 2
  noNul := by decide
  toServerCap_pos := Nat.two_pos
  toClientCap_pos := Nat.two_pos

/-- The server receives `ab` and `c`, the client `a` and `bc`. -/
theorem echoes_abc : ∃ s : State, s.client = .finished ∧ s.printed = "Received: abc\n".toList := by
  obtain ⟨s, -, he, hp⟩ := exec_of_any (initial settingOfAbc) (step settingOfAbc) [.client 0, .client 0, .server 2,
    .client 0, .client 0, .server 0, .server 0, .server 0, .client 1, .server 1, .server 0, .client 2, .client 0,
    .client 0] (fun s => s.client = .finished) (by decide)
  have hfinished : s.client = .finished := of_decide_eq_true hp
  exact ⟨s, hfinished, (echoes settingOfAbc ⟨_, he⟩).2 hfinished⟩

end Echo
