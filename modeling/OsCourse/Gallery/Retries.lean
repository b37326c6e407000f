/-
  `send_and_wait_response` of the visitors (idz os 3/4-5 and later): how often a message is
  sent when no reply comes.
-/
import OsCourse.Lib.While
import OsCourse.Gallery.Visitor

namespace Gallery

open While

/-- What `recv` does: `again` stands for the errors `EAGAIN` and `EWOULDBLOCK`. -/
inductive Reception
  | data (buf : Text)
  | closed
  | again
  | error
  deriving DecidableEq

/-- What the system calls of one round do. -/
inductive Outcome
  | sendFailed
  | sent (r : Reception)
  deriving DecidableEq

/-- The variables of `send_and_wait_response`, and how often it has called `send`. -/
structure Exchange where
  attempts : ℕ
  sends : ℕ

/-- What `send_and_wait_response` returns, what it leaves in `response`, and how often it has
    called `send`. -/
structure Exchanged where
  value : ℤ
  response : Option Text
  sends : ℕ

namespace Exchange

def init : Exchange := { attempts := 0, sends := 0 }

/-- One round of the loop, where `next` is what becomes of `attempts` after a timeout. -/
def round (next : ℕ → ℕ) (outcome : ℕ → Outcome) (s : Exchange) : Exchange ⊕ Exchanged :=
  if s.attempts < maxAttempts then
    match outcome s.sends with
    | .sendFailed => .inr { value := -1, response := none, sends := s.sends + 1 }
    | .sent (.data buf) => .inr { value := 0, response := some buf, sends := s.sends + 1 }
    | .sent .closed => .inr { value := -1, response := none, sends := s.sends + 1 }
    | .sent .again => .inl { attempts := next s.attempts, sends := s.sends + 1 }
    | .sent .error => .inr { value := -1, response := none, sends := s.sends + 1 }
  else .inr { value := -1, response := none, sends := s.sends }

/-- `send_and_wait_response` returns after at most `MAX_ATTEMPTS` calls of `send`. -/
def Bounded (next : ℕ → ℕ) (outcome : ℕ → Outcome) : Prop :=
  ∃ r, Returns (round next outcome) init r ∧ r.sends ≤ maxAttempts

variable {next : ℕ → ℕ} {outcome : ℕ → Outcome} {attempts sends : ℕ}

/-- What a round does: only a timeout is followed by another one. -/
theorem round_cases (next : ℕ → ℕ) (outcome : ℕ → Outcome) (sends : ℕ) (h : attempts < maxAttempts) :
    (outcome sends = .sent .again ∧
      round next outcome ⟨attempts, sends⟩ = .inl ⟨next attempts, sends + 1⟩) ∨
    (outcome sends ≠ .sent .again ∧
      ∃ r, round next outcome ⟨attempts, sends⟩ = .inr r ∧ r.sends = sends + 1) := by
  have hround : round next outcome ⟨attempts, sends⟩ = _ := if_pos h
  rw [hround]
  dsimp only
  rcases outcome sends with _ | _ | _ | _ | _
  case sent.again => exact .inl ⟨rfl, rfl⟩
  all_goals exact .inr ⟨by simp, _, rfl, rfl⟩

theorem round_of_ge (h : maxAttempts ≤ attempts) :
    round next outcome ⟨attempts, sends⟩ = .inr { value := -1, response := none, sends := sends } :=
  if_neg (Nat.not_lt.2 h)

end Exchange

variable {outcome : ℕ → Outcome}

/-! ## The loop of idz os 3/4-5 -/

namespace V4

/-- `continue` without `attempts++` -/
def afterTimeout (attempts : ℕ) : ℕ := attempts

/-- A round that does not end in a timeout is the last one. -/
theorem bounded_of_ne_again {i : ℕ} (hi : i < maxAttempts) (h : outcome i ≠ .sent .again) :
    Exchange.Bounded afterTimeout outcome := by
  let J (s : Exchange) : Prop := s.attempts = 0 ∧ s.sends ≤ i
  refine returns_of_variant (J := J) (fun s => maxAttempts - s.sends) ?_ ⟨rfl, Nat.zero_le i⟩
  rintro ⟨attempts, sends⟩ ⟨hzero, hle⟩
  obtain rfl : attempts = 0 := hzero
  have hle : sends ≤ i := hle
  rcases Exchange.round_cases afterTimeout outcome sends (by decide : 0 < maxAttempts) with
    ⟨ho, hr⟩ | ⟨-, r, hr, hsends⟩
  · have hne : sends ≠ i := by
      rintro rfl
      exact h ho
    exact .inr ⟨_, hr, ⟨rfl, by dsimp only; omega⟩, by dsimp only; omega⟩
  · exact .inl ⟨r, hr, by omega⟩

/-- After three timeouts the loop cannot be left without another `send`. -/
theorem not_bounded (h : ∀ i < maxAttempts, outcome i = .sent .again) :
    ¬ Exchange.Bounded afterTimeout outcome := by
  rintro ⟨r, hr, hle⟩
  have hlt : maxAttempts < r.sends := by
    refine hr.of_invariant (J := fun s => s.attempts = 0) (Q := fun r => maxAttempts < r.sends) ?_ ?_ rfl
    all_goals
      rintro ⟨attempts, sends⟩ x hzero hround
      obtain rfl : attempts = 0 := hzero
      rcases Exchange.round_cases afterTimeout outcome sends (by decide : 0 < maxAttempts) with
        ⟨ho, hr⟩ | ⟨ho, r, hr, hsends⟩
      all_goals
        rw [hr] at hround
        cases hround
    · rfl
    · have hge : ¬ sends < maxAttempts := fun hlt => ho (h sends hlt)
      omega
  omega

/-- **When a message is sent three times at most.** -/
theorem bounded_iff (outcome : ℕ → Outcome) :
    Exchange.Bounded afterTimeout outcome ↔ ∃ i < maxAttempts, outcome i ≠ .sent .again := by
  constructor
  · intro hb
    by_contra hno
    exact not_bounded (fun i hi => not_not.1 fun h => hno ⟨i, hi, h⟩) hb
  · rintro ⟨i, hi, h⟩
    exact bounded_of_ne_again hi h

/-- A server that never replies. -/
theorem not_bounded_silent : ¬ ∀ outcome : ℕ → Outcome, Exchange.Bounded afterTimeout outcome := by
  intro hall
  exact not_bounded (fun _ _ => rfl) (hall fun _ => .sent .again)

end V4

/-! ## The loop of idz os 3/9 -/

namespace V9

/-- `attempts++; continue` -/
def afterTimeout (attempts : ℕ) : ℕ := attempts + 1

/-- **Every timeout counts**, so that the message is sent three times at most. -/
theorem bounded (outcome : ℕ → Outcome) : Exchange.Bounded afterTimeout outcome := by
  let J (s : Exchange) : Prop := s.attempts = s.sends ∧ s.sends ≤ maxAttempts
  refine returns_of_variant (J := J) (fun s => maxAttempts - s.sends) ?_ ⟨rfl, Nat.zero_le _⟩
  rintro ⟨attempts, sends⟩ ⟨hsame, hle⟩
  obtain rfl : attempts = sends := hsame
  have hle : attempts ≤ maxAttempts := hle
  by_cases hlt : attempts < maxAttempts
  · rcases Exchange.round_cases afterTimeout outcome attempts hlt with ⟨-, hr⟩ | ⟨-, r, hr, hsends⟩
    · exact .inr ⟨_, hr, ⟨rfl, hlt⟩, by dsimp only; omega⟩
    · exact .inl ⟨r, hr, by omega⟩
  · exact .inl ⟨_, Exchange.round_of_ge (Nat.not_lt.1 hlt), hle⟩

end V9

end Gallery
