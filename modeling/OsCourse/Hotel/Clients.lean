/-
  The clients of the hotel (IDZ4), and the lines of its output file.
-/
import Mathlib.Data.Int.Notation
import Mathlib.Data.Nat.Notation

namespace Hotel

/-- A client: `id`, `checkin_time`, `during`. -/
structure Client where
  id : ℤ
  checkin : ℤ
  during : ℤ
  deriving DecidableEq

/-- The seconds that `sleep(n)` sleeps; its argument is unsigned. -/
def seconds (n : ℤ) : ℕ := (n % 4294967296).toNat

/-- The number of rooms. -/
abbrev roomsCount : ℕ := 30

/-- The number of days of the administrator. -/
abbrev dayCount : ℕ := 16

/-- The lines of the output file. -/
inductive Line where
  /-- `Day %d:` -/
  | day (n : ℕ)
  /-- `Client %d check-in into his room for %d days.` -/
  | checkIn (id during : ℤ)
  /-- `Client %d leave his room.` -/
  | leave (id : ℤ)
  deriving DecidableEq

def Line.checkIn? : Line → Option (ℤ × ℤ)
  | .checkIn id during => some (id, during)
  | _ => none

def Line.leave? : Line → Option ℤ
  | .leave id => some id
  | _ => none

/-- A list of clients that `generateClients` can produce. -/
structure Generated (clients : List Client) : Prop where
  length : 10 ≤ clients.length ∧ clients.length ≤ 100
  id : ∀ i (h : i < clients.length), clients[i].id = i
  checkin : ∀ c ∈ clients, 1 ≤ c.checkin ∧ c.checkin ≤ 7
  during : ∀ c ∈ clients, 1 ≤ c.during ∧ c.during ≤ 7

end Hotel
