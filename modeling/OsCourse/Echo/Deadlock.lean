/-
  When the echo comes to its end: the client reads nothing before it has handed over the whole
  echo string, so that the string has to fit into what the connection and the server can hold.
-/
import OsCourse.Echo.Connection

namespace Echo

open Transition System Text

variable {S : Setting} {s s' : State} {i total m : ℕ}

/-- No call fails. -/
def Faultless (_ : State) : Act → Prop
  | .client _ | .server _ => True
  | .clientFails | .serverFails => False

/-- Neither program can go on. -/
def Stuck (S : Setting) (s : State) : Prop := ∀ m, stepClient S m s = none ∧ stepServer S m s = none

/-- As long as no call fails, every run comes to its end, and both programs with it. -/
structure Completes (S : Setting) : Prop where
  bounded : ∃ bound, ∀ tr s, ((system S).restrict Faultless).Exec tr s → tr.length ≤ bound
  ends : ∀ s, ((system S).restrict Faultless).Reachable s → Stuck S s → s.client = .finished ∧ s.server = .closed

/-! ## The length of a run -/

/-- How many steps of the client are left, apart from its receiving. -/
def clientLeft (S : Setting) : ClientPc → ℕ
  | .sending i rest => (S.client.rounds - (i + 1)) * (5 * S.echoString.length + 2) + 5 * rest.length + 3
  | .receiving i _ => (S.client.rounds - (i + 1)) * (5 * S.echoString.length + 2) + 2
  | .closing => 1
  | .finished | .died => 0

/-- The same for the server. -/
def serverLeft : ServerPc → ℕ
  | .receiving => 1
  | .sending rest => 2 * rest.length + 2
  | .closed | .died => 0

def left (S : Setting) (s : State) : ℕ :=
  clientLeft S s.client + 4 * s.toServer.length + serverLeft s.server + s.toClient.length

theorem clientLeft_top (S : Setting) (i : ℕ) :
    clientLeft S (top S i) = (S.client.rounds - i) * (5 * S.echoString.length + 2) + 1 := by
  unfold top
  split_ifs with hlt
  · obtain ⟨k, hk⟩ : ∃ k, S.client.rounds - i = k + 1 := ⟨S.client.rounds - i - 1, by omega⟩
    have hk' : S.client.rounds - (i + 1) = k := by omega
    rw [clientLeft, hk, hk', Nat.succ_mul k]
    omega
  · rw [Nat.sub_eq_zero_of_le (Nat.le_of_not_lt hlt), Nat.zero_mul]
    rfl

theorem left_stepClient (h : Inv S s) (hs : stepClient S m s = some s') : left S s' < left S s := by
  have hplace := h.place
  unfold Place at hplace
  unfold stepClient at hs
  split at hs
  case h_1 i b rest hpc =>
    split_ifs at hs
    cases hs
    simp only [left, hpc, clientLeft, List.length_append, List.length_cons, List.length_nil]
    omega
  case h_2 i hpc =>
    cases hs
    simp only [left, hpc, clientLeft, List.length_nil]
    omega
  case h_3 i total hpc =>
    rw [hpc] at hplace
    split_ifs at hs with htotal hempty hserver
    · cases hs
      simp only [left, hpc, clientLeft]
      omega
    · obtain ⟨r, hr, rfl⟩ := Option.map_eq_some_iff.1 hs
      obtain ⟨hbytes, hpos, -⟩ := recv_eq_some hr
      simp only [left, hpc, clientLeft, ← hbytes, List.length_append]
      omega
    · cases hs
      simp only [left, hpc, clientLeft_top S (i + 1)]
      simp only [clientLeft]
      omega
  case h_4 hpc =>
    cases hs
    simp only [left, hpc, clientLeft]
    omega
  case h_5 | h_6 => cases hs

theorem left_stepServer (hs : stepServer S m s = some s') : left S s' < left S s := by
  unfold stepServer at hs
  split at hs
  case h_1 hpc =>
    split_ifs at hs
    · cases hs
      simp only [left, hpc, serverLeft]
      omega
    · obtain ⟨r, hr, rfl⟩ := Option.map_eq_some_iff.1 hs
      obtain ⟨hbytes, hpos, -⟩ := recv_eq_some hr
      simp only [left, hpc, serverLeft, ← hbytes, List.length_append]
      omega
  case h_2 b rest hpc =>
    split_ifs at hs
    cases hs
    simp only [left, hpc, serverLeft, List.length_append, List.length_cons, List.length_nil]
    omega
  case h_3 hpc =>
    cases hs
    simp only [left, hpc, serverLeft, List.length_nil]
    omega
  case h_4 | h_5 => cases hs

theorem reachable_of_restrict (h : ((system S).restrict Faultless).Reachable s) : (system S).Reachable s := by
  obtain ⟨tr, he⟩ := h
  exact ⟨tr, (exec_restrict.1 he).1⟩

/-- The bytes of a round are handed over, received, sent back, and received again. -/
theorem length_le {tr : List (State × Act)} (h : ((system S).restrict Faultless).Exec tr s) :
    tr.length ≤ S.client.rounds * (5 * S.echoString.length + 2) + 2 := by
  have hleft : tr.length + left S s ≤ S.client.rounds * (5 * S.echoString.length + 2) + 2 := by
    induction h with
    | init hi =>
      rw [show _ = initial S from hi]
      simp [left, initial, clientLeft_top, serverLeft]
    | @snoc tr s a s' he hs ih =>
      have hinv := inv_of_reachable (reachable_of_restrict ⟨_, he⟩)
      have hlt : left S s' < left S s := by
        cases a with
        | client m => exact left_stepClient hinv hs.1
        | server m => exact left_stepServer hs.1
        | clientFails | serverFails => exact hs.2.elim
      rw [List.length_append, List.length_singleton]
      omega
  omega

/-! ## The deadlock -/

/-- No program has died. -/
def Alive (s : State) : Prop := s.client ≠ .died ∧ s.server ≠ .died

/-- The connection is not closed prematurely. -/
theorem Alive.step (h : Alive s) (hinv : Inv S s) {a : Act} (ha : Faultless s a) (hs : step S s a = some s') :
    Alive s' := by
  cases a with
  | client m =>
    have hs : stepClient S m s = some s' := hs
    unfold stepClient at hs
    split at hs
    case h_1 =>
      split_ifs at hs
      cases hs
      exact ⟨by simp, h.2⟩
    case h_2 =>
      cases hs
      exact ⟨by simp, h.2⟩
    case h_3 hpc =>
      split_ifs at hs with htotal hempty hclosed
      · -- the server has not closed its end
        cases hserver : s.server with
        | closed =>
          have := hinv.closed hserver
          rw [hpc] at this
          cases this
        | died => exact absurd hserver h.2
        | receiving | sending _ =>
          rw [hserver] at hclosed
          cases hclosed
      · obtain ⟨r, -, rfl⟩ := Option.map_eq_some_iff.1 hs
        exact ⟨by simp, h.2⟩
      · cases hs
        refine ⟨?_, h.2⟩
        show top S _ ≠ .died
        unfold top
        split_ifs <;> simp
    case h_4 =>
      cases hs
      exact ⟨by simp, h.2⟩
    case h_5 | h_6 => cases hs
  | server m =>
    have hs : stepServer S m s = some s' := hs
    unfold stepServer at hs
    split at hs
    case h_1 =>
      split_ifs at hs
      · cases hs
        exact ⟨h.1, by simp⟩
      · obtain ⟨r, -, rfl⟩ := Option.map_eq_some_iff.1 hs
        exact ⟨h.1, by simp⟩
    case h_2 =>
      split_ifs at hs
      cases hs
      exact ⟨h.1, by simp⟩
    case h_3 =>
      cases hs
      exact ⟨h.1, by simp⟩
    case h_4 | h_5 => cases hs
  | clientFails | serverFails => exact ha.elim

theorem alive_of_reachable (h : ((system S).restrict Faultless).Reachable s) : Alive s := by
  have hind : ((system S).restrict Faultless).Inductive fun s => Inv S s ∧ Alive s := by
    refine ⟨fun s hs => ?_, fun s a s' hinv hs => ⟨hinv.1.step hs.1, hinv.2.step hinv.1 hs.2 hs.1⟩⟩
    rw [show s = initial S from hs]
    refine ⟨inv_initial S, ?_, by simp [initial]⟩
    show top S 0 ≠ .died
    unfold top
    split_ifs <;> simp
  exact (hind.reachable h).2

theorem recv_one {size : ℕ} {bytes : Text} (hsize : 0 < size) (hne : bytes ≠ []) : (recv size 1 bytes).isSome := by
  have hlen : 1 ≤ bytes.length := List.length_pos_iff.2 hne
  rw [recv, if_pos ⟨Nat.one_pos, hsize, hlen⟩]
  rfl

/-- A server that is stuck waits for a byte, or for room. -/
theorem server_of_stuck (hstuck : Stuck S s) :
    s.server = .receiving ∧ s.toServer = [] ∧ s.client.closed = false ∨
      (∃ b rest, s.server = .sending (b :: rest) ∧ S.toClientCap ≤ s.toClient.length) ∨ s.server.isClosed = true := by
  have hnone := (hstuck 1).2
  unfold stepServer at hnone
  split at hnone
  case h_1 hpc =>
    split_ifs at hnone with hempty hclosed
    · exact Or.inl ⟨hpc, hempty, by simpa using hclosed⟩
    · have hsome : (recv rcvBufSize 1 s.toServer).isSome := recv_one (by decide) hempty
      rw [Option.map_eq_none_iff.1 hnone] at hsome
      cases hsome
  case h_2 b rest hpc =>
    split_ifs at hnone with hroom
    exact Or.inr (Or.inl ⟨b, rest, hpc, Nat.le_of_not_lt hroom⟩)
  case h_3 => cases hnone
  case h_4 hpc => exact Or.inr (Or.inr (by rw [hpc]; rfl))
  case h_5 hpc => exact Or.inr (Or.inr (by rw [hpc]; rfl))

/-- The echo string does not fit into the connection and the server together. -/
def Clogged (S : Setting) : Prop :=
  0 < S.client.rounds ∧ S.toServerCap + S.toClientCap + 2 ≤ S.echoString.length

/-- When the programs are stuck before their end, every place for a byte is taken. -/
theorem clogged_of_stuck (hinv : Inv S s) (halive : Alive s) (hstuck : Stuck S s) (hlive : s.client ≠ .finished) :
    Clogged S := by
  have hplace := hinv.place
  have hnone := (hstuck 1).1
  have hserver := server_of_stuck hstuck
  have hopen : s.client.closed = false → s.server.isClosed ≠ true := by
    intro hclient hclosed
    cases hpc : s.server with
    | closed =>
      have := hinv.closed hpc
      rw [hclient] at this
      cases this
    | died => exact halive.2 hpc
    | receiving | sending _ =>
      rw [hpc] at hclosed
      cases hclosed
  unfold Place at hplace
  unfold stepClient at hnone
  split at hnone
  case h_1 i b rest hpc =>
    split_ifs at hnone with hroom
    rw [hpc] at hplace
    obtain ⟨⟨hi, -, lost, -, hbytes⟩, -⟩ := hplace
    have hlen := congrArg List.length hbytes
    have hcap := S.toServerCap_pos
    obtain ⟨-, hempty, -⟩ | ⟨b', rest', hserver, hfull⟩ | hclosed := hserver
    · simp [hempty] at hroom
      omega
    · simp only [hpc, hserver, ServerPc.held, ClientPc.unsent, List.drop_zero, List.length_append, List.length_cons]
        at hlen
      exact ⟨by omega, by omega⟩
    · exact absurd hclosed (hopen (by rw [hpc]; rfl))
  case h_2 => cases hnone
  case h_3 i total hpc =>
    rw [hpc] at hplace
    obtain ⟨⟨-, -, lost, hlost, hbytes⟩, -⟩ := hplace
    obtain rfl := hlost halive.2
    split_ifs at hnone with htotal hempty
    · -- the bytes that are missing are in the server, or on their way to it
      exfalso
      have hlen := congrArg List.length hbytes
      rw [List.length_drop] at hlen
      obtain ⟨hserver, hempty', -⟩ | ⟨b, rest, -, hfull⟩ | hclosed := hserver
      · simp only [hempty, hempty', hserver, hpc, ServerPc.held, ClientPc.unsent, List.length_append, List.length_nil]
          at hlen
        omega
      · have hcap := S.toClientCap_pos
        rw [hempty] at hfull
        simp at hfull
        omega
      · exact hopen (by rw [hpc]; rfl) hclosed
    · exfalso
      have hsome : (recv (rcvBufSize - 1) 1 s.toClient).isSome := recv_one (by decide) hempty
      rw [Option.map_eq_none_iff.1 hnone] at hsome
      cases hsome
  case h_4 => cases hnone
  case h_5 hpc => exact absurd hpc hlive
  case h_6 hpc => exact absurd hpc halive.1

/-- When the client has come to its end, the server does so too. -/
theorem closed_of_stuck (hinv : Inv S s) (halive : Alive s) (hstuck : Stuck S s) (hfinished : s.client = .finished) :
    s.server = .closed := by
  have hplace := hinv.place
  simp only [Place, hfinished] at hplace
  obtain ⟨⟨-, hheld, -⟩, -⟩ := hplace
  obtain ⟨-, -, hopen⟩ | ⟨b, rest, hserver, -⟩ | hclosed := server_of_stuck hstuck
  · rw [hfinished] at hopen
    cases hopen
  · rw [hserver] at hheld
    cases hheld
  · cases hpc : s.server with
    | closed => rfl
    | died => exact absurd hpc halive.2
    | receiving | sending _ =>
      rw [hpc] at hclosed
      cases hclosed

/-! ## The run that gets stuck -/

/-- Nothing has been printed yet. -/
def silent (client : ClientPc) (server : ServerPc) (toServer toClient : Text) : State where
  client := client
  server := server
  toServer := toServer
  toClient := toClient
  printed := []

section
variable {client : ClientPc} {server : ServerPc} {toServer toClient rest : Text} {b : Char}

theorem reachable_send (h : ((system S).restrict Faultless).Reachable
      (silent (.sending i (b :: rest)) server toServer toClient)) (hroom : toServer.length < S.toServerCap) :
    ((system S).restrict Faultless).Reachable (silent (.sending i rest) server (toServer ++ [b]) toClient) :=
  h.step (a := .client 0) ⟨if_pos hroom, trivial⟩

theorem reachable_recv (h : ((system S).restrict Faultless).Reachable (silent client .receiving [b] toClient)) :
    ((system S).restrict Faultless).Reachable (silent client (.sending [b]) [] toClient) :=
  h.step (a := .server 1) ⟨rfl, trivial⟩

theorem reachable_sendBack (h : ((system S).restrict Faultless).Reachable
      (silent client (.sending [b]) toServer toClient)) (hroom : toClient.length < S.toClientCap) :
    ((system S).restrict Faultless).Reachable (silent client .receiving toServer (toClient ++ [b])) := by
  have h' : ((system S).restrict Faultless).Reachable (silent client (.sending []) toServer (toClient ++ [b])) :=
    h.step (a := .server 0) ⟨if_pos hroom, trivial⟩
  exact h'.step (a := .server 0) ⟨rfl, trivial⟩

/-- Both directions are full. -/
theorem stuck_silent {b c : Char} {s t u v : Text} (hu : S.toServerCap ≤ u.length) (hv : S.toClientCap ≤ v.length) :
    Stuck S (silent (.sending i (b :: s)) (.sending (c :: t)) u v) :=
  fun _ => ⟨if_neg (Nat.not_lt.2 hu), if_neg (Nat.not_lt.2 hv)⟩

end

variable {k j : ℕ}

/-- The first `k` bytes come back, and are not received. -/
theorem reachable_echoed (hrounds : 0 < S.client.rounds) (hk : k ≤ S.toClientCap) (hlen : k ≤ S.echoString.length) :
    ((system S).restrict Faultless).Reachable
      (silent (.sending 0 (S.echoString.drop k)) .receiving [] (S.echoString.take k)) := by
  induction k with
  | zero =>
    refine .init (show silent _ _ _ _ = initial S from ?_)
    rw [initial, top, if_pos hrounds]
    rfl
  | succ k ih =>
    have h := ih (by omega) (by omega)
    rw [List.drop_eq_getElem_cons hlen] at h
    have hroom : (S.echoString.take k).length < S.toClientCap := by
      rw [List.length_take]
      omega
    have h' := reachable_sendBack (reachable_recv (reachable_send h S.toServerCap_pos)) hroom
    rwa [List.take_append_getElem hlen] at h'

/-- Behind them the server holds one byte, and `j` bytes are on their way to it. -/
theorem reachable_clogging (hrounds : 0 < S.client.rounds) (hj : j ≤ S.toServerCap)
    (hlen : S.toClientCap + 1 + j ≤ S.echoString.length) :
    ∃ b, ((system S).restrict Faultless).Reachable
      (silent (.sending 0 (S.echoString.drop (S.toClientCap + 1 + j))) (.sending [b])
        ((S.echoString.drop (S.toClientCap + 1)).take j) (S.echoString.take S.toClientCap)) := by
  induction j with
  | zero =>
    have h := reachable_echoed hrounds (Nat.le_refl S.toClientCap) (by omega)
    rw [List.drop_eq_getElem_cons (by omega)] at h
    exact ⟨_, reachable_recv (reachable_send h S.toServerCap_pos)⟩
  | succ j ih =>
    obtain ⟨b, h⟩ := ih (by omega) (by omega)
    refine ⟨b, ?_⟩
    have hlt : j < (S.echoString.drop (S.toClientCap + 1)).length := by
      rw [List.length_drop]
      omega
    rw [← List.drop_drop, List.drop_eq_getElem_cons hlt, List.drop_drop] at h
    have hroom : ((S.echoString.drop (S.toClientCap + 1)).take j).length < S.toServerCap := by
      rw [List.length_take]
      omega
    have h' := reachable_send h hroom
    rwa [List.take_append_getElem hlt] at h'

/-- Both programs are in `send`. -/
def BothSend (s : State) : Prop :=
  (∃ i b rest, s.client = .sending i (b :: rest)) ∧ ∃ b rest, s.server = .sending (b :: rest)

/-- The echo string is not sent at all, or has at most one byte more than the connection can hold. -/
def Fits (S : Setting) : Prop := S.client.rounds = 0 ∨ S.echoString.length ≤ S.toServerCap + S.toClientCap + 1

/-- Client and server wait for each other. -/
theorem exists_deadlock (hnot : ¬ Fits S) :
    ∃ s, ((system S).restrict Faultless).Reachable s ∧ Stuck S s ∧ BothSend s := by
  obtain ⟨hrounds, hlen⟩ := not_or.1 hnot
  obtain ⟨b, hreach⟩ := reachable_clogging (S := S) (j := S.toServerCap) (by omega) (Nat.le_refl _) (by omega)
  have hlt : S.toClientCap + 1 + S.toServerCap < S.echoString.length := by omega
  rw [List.drop_eq_getElem_cons hlt] at hreach
  refine ⟨_, hreach, stuck_silent ?_ ?_, ⟨_, _, _, rfl⟩, _, _, rfl⟩
  · rw [List.length_take, List.length_drop]
    omega
  · rw [List.length_take]
    omega

/-- **When the echo comes to its end.**  As long as no call fails, every run ends, with both
    programs at their end, if and only if the echo string has at most one byte more than the two
    directions of the connection can hold (or is not sent at all).  Otherwise some run ends with
    both programs in `send`. -/
theorem completes_iff (S : Setting) :
    (Completes S ↔ Fits S) ∧
      (¬ Fits S → ∃ s, ((system S).restrict Faultless).Reachable s ∧ Stuck S s ∧ BothSend s) := by
  refine ⟨⟨fun h => ?_, fun hfits => ?_⟩, exists_deadlock⟩
  · by_contra hnot
    obtain ⟨s, hreach, hstuck, ⟨i, b, rest, hclient⟩, -⟩ := exists_deadlock hnot
    have hfinished := (h.ends s hreach hstuck).1
    rw [hclient] at hfinished
    cases hfinished
  · refine ⟨⟨_, fun tr s => length_le⟩, fun s hreach hstuck => ?_⟩
    have hinv := inv_of_reachable (reachable_of_restrict hreach)
    have halive := alive_of_reachable hreach
    have hfinished : s.client = .finished := by
      by_contra hlive
      obtain ⟨hrounds, hlen⟩ := clogged_of_stuck hinv halive hstuck hlive
      obtain hzero | hfits := hfits <;> omega
    exact ⟨hfinished, closed_of_stuck hinv halive hstuck hfinished⟩

end Echo
