/-
  The gallery as a distributed system: one server, a family of client programs,
  and their TCP connections.
-/
import OsCourse.Gallery.Service
import OsCourse.Gallery.Visitor
import Mathlib.Data.Fintype.Basic

namespace Gallery

open Transition

/-! ## Connections -/

/-- The server's end of a connection. -/
inductive Sock
  | none
  /-- connected, and not yet accepted -/
  | backlog
  | accepted (fd : ℤ)
  /-- closed by the server -/
  | finished
  deriving DecidableEq

/-- A connection.  The bytes on the way are kept in the pieces in which they were
    sent. -/
structure Conn where
  sock : Sock
  /-- sent by the client, not read by the server -/
  up : List Text
  /-- sent by the server, not received by the client -/
  down : List Text
  /-- closed by the client -/
  closed : Bool
  deriving DecidableEq

/-- A stream without its first `n` bytes. -/
def dropBytes : ℕ → List Text → List Text
  | 0, ts => ts
  | _ + 1, [] => []
  | n + 1, t :: ts =>
    if n + 1 < t.length then t.drop (n + 1) :: ts else dropBytes (n + 1 - t.length) ts

/-- A whole message is taken off the stream. -/
theorem dropBytes_length {t : Text} (ht : t ≠ []) (ts : List Text) : dropBytes t.length (t :: ts) = ts := by
  obtain ⟨c, u, rfl⟩ := List.exists_cons_of_ne_nil ht
  simp [dropBytes]

/-- `buf` can be what one `read` of the stream returns. -/
def CanRead (ts : List Text) (buf : Text) : Prop :=
  buf ≠ [] ∧ buf.length < bufferSize ∧ buf.isPrefixOf ts.flatten = true

instance (ts : List Text) (buf : Text) : Decidable (CanRead ts buf) :=
  inferInstanceAs (Decidable (_ ∧ _ ∧ _))

namespace Conn

/-- The connection of a program that has not connected. -/
def init : Conn := { sock := .none, up := [], down := [], closed := false }

/-- What the system call in which the client stands takes from the connection. -/
def call (c : Conn) : Act → Option Conn
  | .connect => if c.sock = .none then some { c with sock := .backlog } else none
  | .recv buf => if CanRead c.down buf then some { c with down := dropBytes buf.length c.down } else none
  | _ => some c

/-- What the client sends, and its `close`. -/
def push {κ : Type} (c : Conn) (e : Effect κ) : Conn :=
  { c with up := c.up ++ e.sends, closed := c.closed || e.closes }

/-- What `read` of the server takes from the connection: bytes, or the end of the
    stream.  When the client has closed with messages unread, the bytes that the
    server has not read may be lost. -/
def read (c : Conn) : Read → Option Conn
  | .data buf => if CanRead c.up buf then some { c with up := dropBytes buf.length c.up } else none
  | .closed => if c.closed then some { c with up := [], sock := .finished } else none

/-- What the calls of `send` of the server put on the connection. -/
def deliver (c : Conn) (sends : List (ℤ × Text)) : Conn :=
  { c with down := c.down ++ sends.filterMap fun m => if c.sock = .accepted m.1 then some m.2 else none }

end Conn

/-! ## The network -/

/-- A message that the server has handled. -/
structure Entry (ι : Type) where
  who : ι
  input : Input
  response : Text

/-- The server, the clients and their connections, and what the server has handled
    so far, the latest first. -/
structure Net (ι κ : Type) where
  server : Server
  proc : ι → κ
  conn : ι → Conn
  log : List (Entry ι)

/-- A step: of a client, of `accept`, or of the handler. -/
inductive Label (ι : Type)
  | client (u : ι) (a : Act)
  | accept (u : ι) (newSocket : ℤ)
  | server (u : ι) (r : Read)

namespace Net
variable {ι κ : Type}

def init (start : ι → κ) : Net ι κ :=
  { server := .init, proc := start, conn := fun _ => .init, log := [] }

/-- The slot that the server has given to the connection. -/
def slot (s : Net ι κ) (u : ι) : Option Slot :=
  match (s.conn u).sock with
  | .accepted fd => (List.finRange maxClients).find? fun i => (s.server.clients i).fd = fd
  | _ => none

theorem slot_eq_some {s : Net ι κ} {u : ι} {i : Slot} (h : s.slot u = some i) :
    (s.conn u).sock = .accepted (s.server.clients i).fd := by
  unfold slot at h
  cases hc : (s.conn u).sock with
  | accepted fd =>
    rw [hc] at h
    have := List.find?_some h
    rw [of_decide_eq_true this]
  | _ => rw [hc] at h; cases h

variable [DecidableEq ι]

/-- A call of the handler for `u`, on slot `i`.  A fault has no result. -/
def handle (w : Version) (s : Net ι κ) (u : ι) (i : Slot) (c : Conn) (r : Read) : Option (Net ι κ) :=
  (w.handleClientMessage s.server i r).toOption.bind fun x => (decode r).toOption.map fun inp =>
    { server := x.server
      proc := s.proc
      conn := fun v => (Function.update s.conn u c v).deliver x.sends
      log := ⟨u, inp, x.response⟩ :: s.log }

variable [Fintype ι]

def step (w : Version) (prog : ι → Program κ) (s : Net ι κ) : Label ι → Option (Net ι κ)
  | .client u a => (prog u (s.proc u) a).bind fun e => ((s.conn u).call a).map fun c =>
    { s with proc := Function.update s.proc u e.state, conn := Function.update s.conn u (c.push e) }
  | .accept u newSocket =>
    if (s.conn u).sock = .backlog ∧ 0 < newSocket ∧ ∀ v, (s.conn v).sock ≠ .accepted newSocket then
      some { s with server := s.server.accept newSocket
                    conn := Function.update s.conn u { s.conn u with sock := .accepted newSocket } }
    else none
  | .server u r => (s.slot u).bind fun i => ((s.conn u).read r).bind fun c => s.handle w u i c r

/-- The system of a server and client programs. -/
def system (w : Version) (prog : ι → Program κ) (start : ι → κ) : System (Net ι κ) (Label ι) :=
  .ofFn (init start) (step w prog)

variable {w : Version} {prog : ι → Program κ} {s s' : Net ι κ}

/-- **The steps of the network.** -/
theorem step_cases {a : Label ι} (hl : s.server.Legal) (h : step w prog s a = some s') :
    (∃ u act e c, a = .client u act ∧ prog u (s.proc u) act = some e ∧ (s.conn u).call act = some c ∧
      s' = { s with proc := Function.update s.proc u e.state
                    conn := Function.update s.conn u (c.push e) }) ∨
    (∃ u newSocket, a = .accept u newSocket ∧ (s.conn u).sock = .backlog ∧ 0 < newSocket ∧
      (∀ v, (s.conn v).sock ≠ .accepted newSocket) ∧
      s' = { s with server := s.server.accept newSocket
                    conn := Function.update s.conn u { s.conn u with sock := .accepted newSocket } }) ∨
    ∃ u r i c inp x, a = .server u r ∧ s.slot u = some i ∧ (s.conn u).read r = some c ∧
      decode r = .ok inp ∧ w.Handles s.server i inp x ∧
      s' = { server := x.server
             proc := s.proc
             conn := fun v => (Function.update s.conn u c v).deliver x.sends
             log := ⟨u, inp, x.response⟩ :: s.log } := by
  cases a with
  | client u act =>
    obtain ⟨e, he, h⟩ := Option.bind_eq_some_iff.1 h
    obtain ⟨c, hc, rfl⟩ := Option.map_eq_some_iff.1 h
    exact .inl ⟨u, act, e, c, rfl, he, hc, rfl⟩
  | accept u newSocket =>
    obtain ⟨⟨h1, h2, h3⟩, h4⟩ := Option.ite_none_right_eq_some.1 h
    exact .inr (.inl ⟨u, newSocket, rfl, h1, h2, h3, (Option.some.inj h4).symm⟩)
  | server u r =>
    obtain ⟨i, hi, h⟩ := Option.bind_eq_some_iff.1 h
    obtain ⟨c, hc, h⟩ := Option.bind_eq_some_iff.1 h
    obtain ⟨x, hx, h⟩ := Option.bind_eq_some_iff.1 h
    obtain ⟨inp, hinp, rfl⟩ := Option.map_eq_some_iff.1 h
    have hd : decode r = .ok inp := by
      cases hd : decode r with
      | error f => rw [hd] at hinp; cases hinp
      | ok inp' => rw [hd] at hinp; cases hinp; rfl
    obtain ⟨x', hx', hh⟩ := w.react_spec (hl i) inp
    rw [Version.handleClientMessage, hd, Except.bind, hx'] at hx
    obtain rfl := Option.some.inj hx
    exact .inr (.inr ⟨u, r, i, c, inp, x', rfl, hi, hc, hd, hh, rfl⟩)

theorem Legal.step {a : Label ι} (hw : w.Tidy) (hl : s.server.Legal) (h : step w prog s a = some s') :
    s'.server.Legal := by
  obtain ⟨_, _, _, _, -, -, -, rfl⟩ | ⟨_, _, -, -, -, -, rfl⟩ |
    ⟨_, _, _, _, _, _, -, -, -, -, hh, rfl⟩ := step_cases hl h
  · exact hl
  · exact hl.accept _
  · exact hh.legal hw hl

end Net

/-! ## What the visitors were answered -/

/-- Whether a client is inside after a message, if it was `before`: it is when it
    is answered `ENTER_OK`, and until its `EXIT` or its disconnect is handled. -/
def Entry.inside {ι : Type} (e : Entry ι) (before : Bool) : Bool :=
  match e.input with
  | .closed => false
  | .command id (some .enter) _ => before || e.response == enterOk id
  | .command _ (some .exit) _ => false
  | _ => before

/-- Whether a client is at painting `p` after a message: it is when it is answered
    `VIEW_OK`, and until its `LEAVE_PAINTING` is handled. -/
def Entry.viewing {ι : Type} (e : Entry ι) (p : Painting) (before : Bool) : Bool :=
  match e.input with
  | .command id (some .view) n => before || (n == p.val && e.response == viewOk id n)
  | .command _ (some .leavePainting) _ => false
  | _ => before

/-- The clients that are inside. -/
def inside {ι : Type} [DecidableEq ι] : List (Entry ι) → ι → Bool
  | [], _ => false
  | e :: log, u => if e.who = u then e.inside (inside log u) else inside log u

/-- The clients that are at painting `p`. -/
def viewing {ι : Type} [DecidableEq ι] (p : Painting) : List (Entry ι) → ι → Bool
  | [], _ => false
  | e :: log, u => if e.who = u then e.viewing p (viewing p log u) else viewing p log u

theorem enterOk_ne_enterWait (id : ℤ) : enterWait id ≠ enterOk id := by
  intro h
  have hw : 'W' ∈ enterWait id := List.mem_append_left _ (by decide)
  simp only [h] at hw
  rcases List.mem_append.1 hw with hw | hw
  · revert hw; decide
  · have := Text.isUpper_of_mem_fmtInt hw
    revert this; decide

@[simp] theorem Entry.inside_enterOk {ι : Type} (u : ι) (id n : ℤ) (before : Bool) :
    Entry.inside ⟨u, .command id (some .enter) n, enterOk id⟩ before = true := by
  simp [Entry.inside]

@[simp] theorem Entry.inside_enterWait {ι : Type} (u : ι) (id n : ℤ) (before : Bool) :
    Entry.inside ⟨u, .command id (some .enter) n, enterWait id⟩ before = before := by
  have : (enterWait id == enterOk id) = false := beq_eq_false_iff_ne.2 (enterOk_ne_enterWait id)
  simp [Entry.inside, this]

end Gallery
