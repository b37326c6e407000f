/-
  The proposals that the student server (idz os 4) records, the choice of the best one,
  and the answers.
-/
import OsCourse.Lib.FirstMax
import OsCourse.Students.Loggers

namespace Students

open Text FirstMax

/-- `MAX_CLIENTS` -/
abbrev maxClients : ℕ := 100

/-- `MAX_MSG_LEN` -/
abbrev maxMsgLen : ℕ := 1024

structure ClientData where
  addr : Address
  message : Text
  deriving DecidableEq

/-- An entry of a global array that nothing was stored to. -/
def ClientData.zero : ClientData := { addr := ⟨⟨0, 0, 0, 0⟩, 0⟩, message := [] }

/-- The buffer after `recvfrom` of at most `MAX_MSG_LEN - 1` bytes, as a string. -/
def received (payload : Text) : Text := cstr (payload.take (maxMsgLen - 1))

/-- The outcome of `select`. -/
inductive Select where
  /-- -1 with another `errno` than `EINTR` -/
  | error
  /-- -1 with `EINTR` -/
  | eintr
  | timeout
  | ready (main log : Bool)

/-- What is stored for a datagram. -/
def ClientData.ofDatagram (addr : Address) (payload : Text) : ClientData :=
  { addr := addr, message := received payload }

/-- `clients[i]`, when the array is zero behind what has been recorded. -/
def entry (clients : List ClientData) (i : ℕ) : ClientData := clients.getD i ClientData.zero

/-- The loop that chooses the best of the first `n` entries, the one with the longest
    message. -/
def selectBest (clients : List ClientData) (n : ℕ) : ℕ :=
  firstMax (fun i => (entry clients i).message.length) n

inductive Answer where
  | agree
  | reject
  | shutdown
  deriving DecidableEq

/-- `(i == best) ? "AGREE" : "REJECT"` -/
def response (best i : ℕ) : Answer := if i = best then .agree else .reject

/-- An answer that is sent, with the index of the entry it is for. -/
structure Reply where
  client : ℕ
  addr : Address
  answer : Answer
  deriving DecidableEq

/-- The answer to entry `i`. -/
def reply (clients : List ClientData) (answer : ℕ → Answer) (i : ℕ) : Reply :=
  { client := i, addr := (entry clients i).addr, answer := answer i }

/-- The answers to the first `n` entries. -/
def replies (clients : List ClientData) (answer : ℕ → Answer) (n : ℕ) : List Reply :=
  (List.range n).map (reply clients answer)

variable {clients : List ClientData} {answer : ℕ → Answer} {n i best : ℕ}

theorem replies_succ (clients : List ClientData) (answer : ℕ → Answer) (n : ℕ) :
    replies clients answer (n + 1) = replies clients answer n ++ [reply clients answer n] := by
  rw [replies, List.range_succ, List.map_append]; rfl

theorem mem_replies {r : Reply} : r ∈ replies clients answer n ↔ ∃ i < n, reply clients answer i = r := by
  simp [replies]

/-- The answers to entry `i`. -/
theorem filter_replies (hi : i < n) :
    (replies clients answer n).filter (fun r => r.client = i) = [reply clients answer i] := by
  induction n with
  | zero => exact absurd hi (Nat.not_lt_zero i)
  | succ n ih =>
    rw [replies_succ, List.filter_append]
    rcases Nat.lt_succ_iff_lt_or_eq.1 hi with hlt | rfl
    · have hne : ¬ n = i := by omega
      rw [ih hlt]
      simp [reply, hne]
    · have hnil : (replies clients answer i).filter (fun r => r.client = i) = [] := by
        rw [List.filter_eq_nil_iff]
        intro r hr
        obtain ⟨j, hj, rfl⟩ := mem_replies.1 hr
        have : ¬ j = i := by omega
        simp [reply, this]
      rw [hnil]
      simp [reply]

theorem entry_eq_get (hi : i < clients.length) : entry clients i = clients[i] := by
  simp [entry, hi]

theorem entry_of_ge (hi : clients.length ≤ i) : entry clients i = ClientData.zero := by
  simp [entry, List.getElem?_eq_none hi]

/-- **The best proposal** is the first of the longest ones that were recorded, if there
    are any; entries behind them do not count. -/
theorem selectBest_spec (hpos : 0 < clients.length) (hle : clients.length ≤ n) :
    IsFirstMax (fun i => (entry clients i).message.length) clients.length (selectBest clients n) := by
  have hn : 0 < n := Nat.lt_of_lt_of_le hpos hle
  refine (isFirstMax_firstMax _ hn).of_tail hpos hle fun i hi _ j _ => ?_
  rw [entry_of_ge hi]
  exact Nat.zero_le _

end Students
