/-
  The slots of the server and the connections of the clients: which belong
  together, in every run of the network.
-/
import OsCourse.Gallery.Network
import Mathlib.Tactic.SplitIfs

namespace Gallery

open Transition

variable {ι κ : Type} {w : Version}

/-! ## What the handler does to the connections -/

namespace Version.Handles
variable {s : Server} {i : Slot} {inp : Input} {r : Reaction}

/-- The other slots are untouched. -/
theorem clients_of_ne (h : w.Handles s i inp r) {j : Slot} (hj : j ≠ i) :
    r.server.clients j = s.clients j := by
  cases h with
  | closed hs => subst hs; simp [hj]
  | monitor hs => subst hs; simp [hj]
  | _ => simp [reply, silent, hj]

/-- The handler closes the connection of its own slot, or none. -/
theorem fd_eq (h : w.Handles s i inp r) (j : Slot) :
    (r.server.clients j).fd = if j = i ∧ inp = .closed then -1 else (s.clients j).fd := by
  by_cases hj : j = i
  · subst hj
    cases h with
    | closed hs => subst hs; simp
    | monitor hs => subst hs; simp
    | _ => simp [reply, silent]
  · rw [if_neg fun h' => hj h'.1, h.clients_of_ne hj]

/-- Only the message `MONITOR` makes a monitor. -/
theorem isMonitor_eq (h : w.Handles s i inp r) (hinp : inp ≠ .monitor) (j : Slot) :
    (r.server.clients j).isMonitor = (s.clients j).isMonitor := by
  by_cases hj : j = i
  · subst hj
    cases h with
    | closed hs => subst hs; simp
    | monitor => exact absurd rfl hinp
    | _ => simp [reply, silent]
  · rw [h.clients_of_ne hj]

end Version.Handles

theorem Conn.call_sock {c c' : Conn} {a : Act} (h : c.call a = some c') :
    c'.sock = c.sock ∨ (c.sock = .none ∧ c'.sock = .backlog) := by
  cases a with
  | connect =>
    obtain ⟨hc, h⟩ := Option.ite_none_right_eq_some.1 h
    cases h; exact .inr ⟨hc, rfl⟩
  | recv buf =>
    obtain ⟨-, h⟩ := Option.ite_none_right_eq_some.1 h
    cases h; exact .inl rfl
  | _ => cases h; exact .inl rfl

/-- A call of the client takes nothing off but what it receives. -/
theorem Conn.call_spec {c c' : Conn} {a : Act} (h : c.call a = some c') :
    c'.up = c.up ∧ c'.closed = c.closed ∧ ((∀ buf, a ≠ .recv buf) → c'.down = c.down) := by
  cases a with
  | connect =>
    obtain ⟨-, h⟩ := Option.ite_none_right_eq_some.1 h
    cases h; exact ⟨rfl, rfl, fun _ => rfl⟩
  | recv buf =>
    obtain ⟨-, h⟩ := Option.ite_none_right_eq_some.1 h
    cases h; exact ⟨rfl, rfl, fun hne => absurd rfl (hne buf)⟩
  | _ => cases h; exact ⟨rfl, rfl, fun _ => rfl⟩

theorem Conn.read_down {c c' : Conn} {r : Read} (h : c.read r = some c') : c'.down = c.down := by
  cases r with
  | closed | data =>
    obtain ⟨-, h⟩ := Option.ite_none_right_eq_some.1 h
    cases h; rfl

theorem Conn.read_sock {c c' : Conn} {r : Read} {inp : Input} (h : c.read r = some c') (hd : decode r = .ok inp) :
    c'.sock = if inp = .closed then .finished else c.sock := by
  cases r with
  | closed =>
    obtain ⟨-, h⟩ := Option.ite_none_right_eq_some.1 h
    obtain rfl := Except.ok.inj hd
    cases h; rfl
  | data buf =>
    obtain ⟨-, h⟩ := Option.ite_none_right_eq_some.1 h
    cases h
    rw [if_neg (decode_data_ne_closed hd)]

/-! ## The wiring -/

/-- Slots and connections are in order: descriptors are positive, no two
    connections or slots share one, and every open slot has a connection. -/
structure Net.Wired (s : Net ι κ) : Prop where
  pos : ∀ {u fd}, (s.conn u).sock = .accepted fd → 0 < fd
  inj : ∀ {u v fd}, (s.conn u).sock = .accepted fd → (s.conn v).sock = .accepted fd → u = v
  slot_inj : ∀ {i j}, (s.server.clients i).fd = (s.server.clients j).fd → s.server.IsOpen i → i = j
  owner : ∀ {i}, s.server.IsOpen i → ∃ u, (s.conn u).sock = .accepted (s.server.clients i).fd

namespace Net
variable {s s' : Net ι κ} {u : ι} {i : Slot}

theorem Wired.slot_isOpen (h : s.Wired) (hi : s.slot u = some i) : s.server.IsOpen i := by
  have := h.pos (slot_eq_some hi)
  unfold Server.IsOpen; omega

/-- The slot of a connection is the one with its descriptor. -/
theorem Wired.slot_of (h : s.Wired) (hu : (s.conn u).sock = .accepted (s.server.clients i).fd) :
    s.slot u = some i := by
  have hpos := h.pos hu
  simp only [slot, hu]
  have hex : ((List.finRange maxClients).find? fun j =>
      decide ((s.server.clients j).fd = (s.server.clients i).fd)).isSome := by
    rw [List.find?_isSome]; exact ⟨i, List.mem_finRange i, by simp⟩
  obtain ⟨j, hj⟩ := Option.isSome_iff_exists.1 hex
  have hji : (s.server.clients j).fd = (s.server.clients i).fd := by simpa using List.find?_some hj
  rw [h.slot_inj hji (by unfold Server.IsOpen; omega)] at hj
  exact hj

theorem wired_init (start : ι → κ) : (Net.init start).Wired := by
  refine ⟨?_, ?_, ?_, ?_⟩
  · intro _ _ h
    simp [Net.init, Conn.init] at h
  · intro _ _ _ h
    simp [Net.init, Conn.init] at h
  · intro _ _ _ h
    exact absurd rfl h
  · intro _ h
    exact absurd rfl h

variable [DecidableEq ι]

theorem Wired.client (h : s.Wired) {k : κ} {c : Conn} (u : ι)
    (hc : c.sock = (s.conn u).sock ∨ ((s.conn u).sock = .none ∧ c.sock = .backlog)) :
    Wired { s with proc := Function.update s.proc u k, conn := Function.update s.conn u c } := by
  have key : ∀ v fd, (Function.update s.conn u c v).sock = .accepted fd ↔ (s.conn v).sock = .accepted fd := by
    intro v fd
    by_cases hv : v = u
    · subst hv
      rcases hc with hc | ⟨h1, h2⟩
      · simp [hc]
      · simp [h1, h2]
    · simp [hv]
  exact ⟨fun hu => h.pos ((key _ _).1 hu), fun hu hv => h.inj ((key _ _).1 hu) ((key _ _).1 hv), h.slot_inj,
    fun hi => (h.owner hi).imp fun v hv => (key _ _).2 hv⟩

theorem Wired.accept (h : s.Wired) {newSocket : ℤ} (hb : (s.conn u).sock = .backlog)
    (hpos : 0 < newSocket) (hfresh : ∀ v, (s.conn v).sock ≠ .accepted newSocket) :
    Wired { s with server := s.server.accept newSocket
                   conn := Function.update s.conn u { s.conn u with sock := .accepted newSocket } } := by
  have hother : ∀ v fd, v ≠ u → ((Function.update s.conn u { s.conn u with sock := .accepted newSocket } v).sock =
      .accepted fd ↔ (s.conn v).sock = .accepted fd) := fun v fd hv => by simp [hv]
  have hfree : ∀ i, (s.server.clients i).fd ≠ newSocket := by
    intro i hi
    obtain ⟨v, hv⟩ := h.owner (i := i) (by unfold Server.IsOpen; omega)
    exact hfresh v (hi ▸ hv)
  refine ⟨fun {v fd} hv => ?_, fun {v v' fd} hv hv' => ?_, fun {i j} hij hi => ?_, fun {i} hi => ?_⟩
  · by_cases hvu : v = u
    · subst hvu; simp at hv; omega
    · exact h.pos ((hother v fd hvu).1 hv)
  · by_cases hvu : v = u <;> by_cases hvu' : v' = u
    · rw [hvu, hvu']
    · subst hvu
      simp at hv; subst hv
      exact absurd ((hother v' _ hvu').1 hv') (hfresh v')
    · subst hvu'
      simp at hv'; subst hv'
      exact absurd ((hother v _ hvu).1 hv) (hfresh v)
    · exact h.inj ((hother v fd hvu).1 hv) ((hother v' fd hvu').1 hv')
  all_goals
    rcases s.server.accept_cases newSocket with ⟨k, -, hk, he⟩ | ⟨-, he⟩
    all_goals simp only [he, Server.IsOpen] at *
  · by_cases hik : i = k <;> by_cases hjk : j = k
    · rw [hik, hjk]
    · subst hik; simp [hjk] at hij; exact absurd hij.symm (hfree j)
    · subst hjk; simp [hik] at hij; exact absurd hij (hfree i)
    · simp [hik, hjk] at hij hi; exact h.slot_inj hij hi
  · exact h.slot_inj hij hi
  · by_cases hik : i = k
    · subst hik; exact ⟨u, by simp⟩
    · simp [hik] at hi ⊢
      obtain ⟨v, hv⟩ := h.owner hi
      exact ⟨v, (hother v _ (by rintro rfl; rw [hb] at hv; cases hv)).2 hv⟩
  · obtain ⟨v, hv⟩ := h.owner hi
    exact ⟨v, (hother v _ (by rintro rfl; rw [hb] at hv; cases hv)).2 hv⟩

theorem Wired.server (h : s.Wired) (log : List (Entry ι)) {inp : Input} {x : Reaction} {c : Conn}
    (hi : s.slot u = some i) (hh : w.Handles s.server i inp x)
    (hc : c.sock = if inp = .closed then .finished else (s.conn u).sock) :
    Wired { server := x.server, proc := s.proc, log := log
            conn := fun v => (Function.update s.conn u c v).deliver x.sends } := by
  have hu := slot_eq_some hi
  have hopen := h.slot_isOpen hi
  have key : ∀ v fd, (Function.update s.conn u c v).sock = .accepted fd ↔
      ((s.conn v).sock = .accepted fd ∧ ¬ (v = u ∧ inp = .closed)) := by
    intro v fd
    by_cases hv : v = u
    · subst hv
      by_cases hinp : inp = .closed
      · simp [hc, hinp]
      · simp [hc, hinp]
    · simp [hv]
  have hslot : ∀ j, x.server.IsOpen j → (x.server.clients j).fd = (s.server.clients j).fd ∧
      s.server.IsOpen j ∧ ¬ (j = i ∧ inp = .closed) := by
    intro j hj
    have := hh.fd_eq j
    unfold Server.IsOpen at *
    split_ifs at this with hji
    · exact absurd this hj
    · exact ⟨this, this ▸ hj, hji⟩
  refine ⟨fun hv => h.pos ((key _ _).1 hv).1, fun hv hv' => h.inj ((key _ _).1 hv).1 ((key _ _).1 hv').1,
    ?_, ?_⟩
  · intro j k hjk hj
    obtain ⟨h1, h2, -⟩ := hslot j hj
    obtain ⟨h3, -, -⟩ := hslot k (by dsimp only at hjk; unfold Server.IsOpen at *; rwa [← hjk])
    dsimp only at hjk
    exact h.slot_inj (by rw [← h1, ← h3, hjk]) h2
  · intro j hj
    obtain ⟨h1, h2, h3⟩ := hslot j hj
    obtain ⟨v, hv⟩ := h.owner h2
    refine ⟨v, ?_⟩
    dsimp only
    rw [h1]
    refine (key v _).2 ⟨hv, fun hvu => h3 ⟨?_, hvu.2⟩⟩
    rw [hvu.1, hu] at hv
    exact (h.slot_inj (Sock.accepted.inj hv) hopen).symm

variable [Fintype ι] {prog : ι → Program κ}

theorem Wired.step {a : Label ι} (h : s.Wired) (hl : s.server.Legal) (hs : Net.step w prog s a = some s') :
    s'.Wired := by
  obtain ⟨u, _, e, c, -, -, hc, rfl⟩ | ⟨u, _, -, hb, hpos, hfresh, rfl⟩ |
    ⟨u, r, i, c, inp, x, -, hi, hc, hd, hh, rfl⟩ := step_cases hl hs
  · exact h.client u (by simpa [Conn.push] using Conn.call_sock hc)
  · exact h.accept hb hpos hfresh
  · exact h.server _ hi hh (Conn.read_sock hc hd)

end Net

/-! ## Deliveries -/

theorem Conn.deliver_of_ne {c : Conn} {sends : List (ℤ × Text)} (h : ∀ m ∈ sends, c.sock ≠ .accepted m.1) :
    c.deliver sends = c := by
  have : sends.filterMap (fun m => if c.sock = .accepted m.1 then some m.2 else none) = [] :=
    List.filterMap_eq_nil_iff.2 fun m hm => if_neg (h m hm)
  simp [deliver, this]

end Gallery
