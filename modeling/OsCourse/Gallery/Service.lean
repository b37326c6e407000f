/-
  The main loop of the gallery servers, with clients that may send anything: the
  steps are the calls of `accept` and of `handle_client_message`.
-/
import OsCourse.Gallery.Handler
import OsCourse.Lib.Transition

namespace Gallery

open Transition

/-- `read` returns at most `BUFFER_SIZE - 1` bytes. -/
def Read.Fits : Read → Prop
  | .closed => True
  | .data buf => buf ≠ [] ∧ buf.length < bufferSize

instance : ∀ r : Read, Decidable r.Fits
  | .closed => inferInstanceAs (Decidable True)
  | .data _ => inferInstanceAs (Decidable (_ ∧ _))

/-- What the loop reacts to. -/
inductive Event
  | connect (newSocket : ℤ)
  | message (i : Slot) (r : Read)
  deriving DecidableEq

namespace Version
variable (w : Version)

/-- One turn of the loop.  A new socket has a number that no open connection
    has; a fault of the handler has no result. -/
def serve (s : Server) : Event → Option Reaction
  | .connect newSocket =>
    if 0 < newSocket ∧ ∀ i, (s.clients i).fd ≠ newSocket then some (silent (s.accept newSocket))
    else none
  | .message i r =>
    if s.IsOpen i ∧ r.Fits then (w.handleClientMessage s i r).toOption else none

def step (s : Server) (e : Event) : Option Server := (w.serve s e).map Reaction.server

/-- The server with arbitrary clients. -/
def system : System Server Event := .ofFn .init w.step

variable {w} {s : Server} {r : Reaction} {newSocket : ℤ} {i : Slot} {m : Read}

theorem serve_connect (h : w.serve s (.connect newSocket) = some r) :
    0 < newSocket ∧ (∀ i, (s.clients i).fd ≠ newSocket) ∧ r = silent (s.accept newSocket) := by
  obtain ⟨⟨h1, h2⟩, h3⟩ := Option.ite_none_right_eq_some.1 h
  exact ⟨h1, h2, (Option.some.inj h3).symm⟩

/-- What a message does: it is decoded, and the handler goes through one of its
    cases. -/
theorem serve_message (hs : s.Legal) (h : w.serve s (.message i m) = some r) :
    s.IsOpen i ∧ ∃ inp, decode m = .ok inp ∧ w.Handles s i inp r := by
  obtain ⟨⟨h1, -⟩, h3⟩ := Option.ite_none_right_eq_some.1 h
  refine ⟨h1, ?_⟩
  unfold handleClientMessage at h3
  cases hd : decode m with
  | error f => rw [hd] at h3; cases h3
  | ok inp =>
    obtain ⟨r', hr', hh⟩ := w.react_spec (hs i) inp
    rw [hd, Except.bind, hr'] at h3
    obtain rfl := Option.some.inj h3
    exact ⟨inp, rfl, hh⟩

theorem step_cases {s' : Server} {e : Event} (hs : s.Legal) (h : w.system.step s e s') :
    (∃ newSocket, e = .connect newSocket ∧ 0 < newSocket ∧ (∀ i, (s.clients i).fd ≠ newSocket) ∧
      s' = s.accept newSocket) ∨
    ∃ i m inp r, e = .message i m ∧ s.IsOpen i ∧ decode m = .ok inp ∧ w.Handles s i inp r ∧
      s' = r.server := by
  obtain ⟨r, hr, rfl⟩ := Option.map_eq_some_iff.1 h
  cases e with
  | connect newSocket =>
    obtain ⟨h1, h2, rfl⟩ := serve_connect hr
    exact .inl ⟨newSocket, rfl, h1, h2, rfl⟩
  | message i m =>
    obtain ⟨h1, inp, h2, h3⟩ := serve_message hs hr
    exact .inr ⟨i, m, inp, r, rfl, h1, h2, h3, rfl⟩

/-! ## Legal paintings -/

/-- A painting stays legal when `EXIT` keeps it or resets it. -/
def Tidy (w : Version) : Prop := ∀ n, w.painting n = n ∨ w.painting n = -1

theorem Handles.legal {inp : Input} (hw : w.Tidy) (h : w.Handles s i inp r) (hs : s.Legal) :
    r.server.Legal := by
  have key : ∀ (c : Client) (v : ℤ) (counts : Painting → ℤ), c.Legal →
      Server.Legal ⟨Function.update s.clients i c, v, counts⟩ :=
    fun c _ _ hc j => hs.setClient hc j
  have hi := hs i
  cases h with
  | closed hs' => subst hs'; exact key _ _ _ hi
  | monitor hs' => subst hs'; exact hs.setClient hi
  | ignored => exact hs
  | enterOk => exact key _ _ _ hi
  | enterWait => exact hs.setClient hi
  | viewOk => exact key _ _ _ (.inr ⟨_, rfl⟩)
  | viewWait => exact hs.setClient hi
  | viewNone => exact hs.setClient hi
  | left => exact key _ _ _ (.inl rfl)
  | notLeft => exact hs.setClient hi
  | exit =>
    refine key _ _ _ ?_
    rcases hw (s.clients i).currentPainting with h | h
    · simpa only [Client.Legal, h] using hi
    · exact .inl h
  | unknown => exact hs.setClient hi

theorem legal_step {s' : Server} {e : Event} (hw : w.Tidy) (hs : s.Legal)
    (h : w.system.step s e s') : s'.Legal := by
  obtain ⟨_, -, -, -, rfl⟩ | ⟨_, _, _, _, -, -, -, hh, rfl⟩ := step_cases hs h
  · exact hs.accept _
  · exact hh.legal hw hs

/-- **No index outside `painting_counts`**: `current_painting` is always legal. -/
theorem legal_reachable (hw : w.Tidy) (h : w.system.Reachable s) : s.Legal :=
  System.Inductive.reachable (S := w.system) (J := Server.Legal)
    ⟨fun _ h => h ▸ Server.legal_init, fun _ _ _ hs hst => legal_step hw hs hst⟩ h

end Version

theorem V9.tidy : V9.version.Tidy := fun _ => .inr rfl

theorem V10.tidy : V10.version.Tidy := fun _ => .inl rfl

end Gallery
