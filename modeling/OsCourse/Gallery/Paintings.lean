/-
  The gallery server of idz os 3/9 with arbitrary clients: when
  `painting_counts` counts the clients in front of the paintings.
-/
import OsCourse.Gallery.Service
import OsCourse.Lib.Counting
import Mathlib.Tactic.SplitIfs

namespace Gallery

open Transition Counting

/-- The slot is open, and its client at painting `p`. -/
def Client.At (p : Painting) (c : Client) : Prop := c.fd ≠ -1 ∧ c.currentPainting = p.val

instance (p : Painting) : DecidablePred (Client.At p) := fun _ => inferInstanceAs (Decidable (_ ∧ _))

/-- The number of open slots whose `current_painting` is `p`. -/
def Server.viewers (s : Server) (p : Painting) : ℕ := num fun i => (s.clients i).At p

/-- `painting_counts` is right. -/
def Server.CountsViewers (s : Server) : Prop := ∀ p, s.paintingCounts p = s.viewers p

theorem Client.at_iff {p : Painting} {c : Client} (h : c.fd ≠ -1) : c.At p ↔ c.currentPainting = p.val := by
  simp [At, h]

theorem Client.not_at {p : Painting} {c : Client} (h : c.currentPainting = -1) : ¬ c.At p := by
  rintro ⟨-, h'⟩; omega

/-- **When only slot `i` changes**, `painting_counts` stays right iff each counter
    moves as the client of slot `i` does. -/
theorem Server.CountsViewers.update_iff {s : Server} (h : s.CountsViewers) (i : Slot) (c : Client) (v : ℤ)
    (counts : Painting → ℤ) :
    CountsViewers ⟨Function.update s.clients i c, v, counts⟩ ↔
      ∀ p, counts p + (if (s.clients i).At p then 1 else 0) =
        s.paintingCounts p + if c.At p then 1 else 0 := by
  refine forall_congr' fun p => ?_
  have h1 : viewers ⟨Function.update s.clients i c, v, counts⟩ p + (if (s.clients i).At p then 1 else 0) =
      s.viewers p + (if c.At p then 1 else 0) := num_update (Client.At p) s.clients i c
  have h2 := h p
  dsimp only
  split_ifs at h1 ⊢ <;> omega

/-- A client that is at a painting is counted there, and so the clamp of the
    decrement plays no role. -/
theorem V9.released_eq {s : Server} (h : s.CountsViewers) {i : Slot} (hi : s.IsOpen i) (p : Painting) :
    V9.version.released s.paintingCounts (s.clients i).currentPainting p +
      (if (s.clients i).At p then 1 else 0) = s.paintingCounts p := by
  by_cases hp : (s.clients i).At p
  · have h1 : 0 < s.viewers p := num_pos (P := fun i => (s.clients i).At p) hp
    have h2 := h p
    rw [if_pos hp, Version.released, if_pos hp.2]
    simp only [V9.version]
    split_ifs <;> omega
  · rw [if_neg hp, Version.released, if_neg fun h' => hp ⟨hi, h'⟩, add_zero]

/-- The steps that keep `painting_counts` right: no connection is put into a slot
    that an earlier client left in front of a painting, and no client that is
    already at a painting is given a place. -/
def V9.Keeps (s : Server) : Event → Prop
  | .connect _ => ∀ i, s.freeSlot = some i → (s.clients i).currentPainting = -1
  | .message i m => ∀ id (p : Painting), decode m = .ok (.command id (some .view) p.val) →
      s.paintingCounts p < maxPaintingVisitors → (s.clients i).currentPainting = -1

/-- **Connections**: the counters stay right iff the slot was left clean. -/
theorem countsViewers_accept_iff {s : Server} (hl : s.Legal) (h : s.CountsViewers) {newSocket : ℤ}
    (hpos : 0 < newSocket) : (s.accept newSocket).CountsViewers ↔ V9.Keeps s (.connect newSocket) := by
  rcases s.accept_cases newSocket with ⟨i, hf, hi, he⟩ | ⟨hall, he⟩
  · have hn : ∀ p, ¬ (s.clients i).At p := fun p hp => hp.1 hi
    have hat : ∀ p, Client.At p { s.clients i with fd := newSocket } ↔ (s.clients i).currentPainting = p.val :=
      fun p => Client.at_iff (by dsimp only; omega)
    rw [he, Server.setClient, h.update_iff]
    simp only [hn, hat, if_false, add_zero, V9.Keeps, hf, Option.some.injEq, forall_eq']
    constructor
    · intro hp
      rcases hl i with hc | ⟨p, hc⟩
      · exact hc
      · have := hp p; simp [hc] at this
    · intro hc p; rw [if_neg (by omega), add_zero]
  · refine ⟨fun _ i hf => absurd (Server.freeSlot_eq_some hf).1 (hall i), fun _ => by rwa [he]⟩

/-- A place at painting `p` for a client keeps the counters right iff the client
    is at no painting. -/
theorem countsViewers_view_iff {s : Server} (hl : s.Legal) (h : s.CountsViewers) {i : Slot}
    (hi : s.IsOpen i) (id : ℤ) (p : Painting) :
    Server.CountsViewers
      ⟨Function.update s.clients i { s.clients i with visitorId := id, currentPainting := p.val },
        s.currentVisitors, Function.update s.paintingCounts p (s.paintingCounts p + 1)⟩ ↔
      (s.clients i).currentPainting = -1 := by
  have hat : ∀ q, Client.At q { s.clients i with visitorId := id, currentPainting := p.val } ↔ q = p := by
    intro q
    rw [Client.at_iff (by exact hi), Fin.ext_iff]
    dsimp only
    omega
  rw [h.update_iff]
  constructor
  · intro hq
    rcases hl i with hc | ⟨c, hc⟩
    · exact hc
    · have hc' : (s.clients i).At c := ⟨hi, hc⟩
      have := hq c
      -- the client leaves `c` without being taken off its counter
      simp only [hat, if_pos hc'] at this
      by_cases hcp : c = p
      · subst hcp; simp at this
      · simp [hcp] at this
  · intro hc q
    simp only [hat, if_neg (Client.not_at hc), add_zero]
    by_cases hqp : q = p
    · subst hqp; simp
    · simp [hqp]

/-- **Messages**: the counters stay right unless a client that is at a painting is
    given a place. -/
theorem V9.countsViewers_message_iff {s : Server} (hl : s.Legal) (h : s.CountsViewers) {i : Slot}
    {m : Read} {inp : Input} {r : Reaction} (hi : s.IsOpen i) (hd : decode m = .ok inp)
    (hh : V9.version.Handles s i inp r) :
    r.server.CountsViewers ↔ V9.Keeps s (.message i m) := by
  have hfree : ∀ id (p : Painting), inp ≠ .command id (some .view) p.val →
      ¬ decode m = .ok (.command id (some .view) p.val) := by
    rintro id p hne hd'; rw [hd] at hd'; exact hne (Except.ok.inj hd')
  -- the other cases move the client and the counters together, or not at all
  have hkeep (hne : ∀ id (p : Painting), inp ≠ .command id (some .view) p.val)
      (hs : r.server.CountsViewers) : r.server.CountsViewers ↔ V9.Keeps s (.message i m) :=
    ⟨fun _ id p hd' => absurd hd' (hfree id p (hne id p)), fun _ => hs⟩
  have hsame (c : Client) (v : ℤ) (hc : ∀ p, c.At p ↔ (s.clients i).At p) :
      Server.CountsViewers ⟨Function.update s.clients i c, v, s.paintingCounts⟩ :=
    (h.update_iff i c v _).2 fun p => by simp only [hc]
  have hgone (c : Client) (v : ℤ) (hc : ∀ p, ¬ c.At p) :
      Server.CountsViewers ⟨Function.update s.clients i c, v,
        V9.version.released s.paintingCounts (s.clients i).currentPainting⟩ :=
    (h.update_iff i c v _).2 fun p => by simp only [V9.released_eq h hi, hc, if_false, add_zero]
  cases hh with
  | closed hs => subst hs; exact hkeep (by simp) (hgone _ _ fun p hp => hp.1 rfl)
  | monitor hs => subst hs; exact hkeep (by simp) (hsame _ _ fun p => Iff.rfl)
  | ignored => exact hkeep (by simp) h
  | enterOk => exact hkeep (by simp) (hsame _ _ fun p => Iff.rfl)
  | enterWait => exact hkeep (by simp) (hsame _ _ fun p => Iff.rfl)
  | left => exact hkeep (by simp) (hgone _ _ fun p => Client.not_at rfl)
  | notLeft => exact hkeep (by simp) (hsame _ _ fun p => Iff.rfl)
  | exit => exact hkeep (by simp) (hgone _ _ fun p => Client.not_at rfl)
  | unknown => exact hkeep (by simp) (hsame _ _ fun p => Iff.rfl)
  | viewNone hn =>
    refine hkeep ?_ (hsame _ _ fun p => Iff.rfl)
    rintro id p ⟨⟩
    rw [painting?_eq_some.2 rfl] at hn; cases hn
  | @viewWait id p hge =>
    refine ⟨fun _ id' q hd' hlt => ?_, fun _ => hsame _ _ fun p => Iff.rfl⟩
    rw [hd] at hd'
    obtain rfl : q = p := Fin.ext (by simp at hd'; omega)
    exact absurd hlt hge
  | @viewOk id p hlt =>
    refine (countsViewers_view_iff hl h hi id p).trans ⟨fun hc _ _ _ _ => hc, fun hk => hk id p hd hlt⟩

theorem V9.inductive_keeps :
    (V9.version.system.restrict V9.Keeps).Inductive fun s => s.Legal ∧ s.CountsViewers where
  init := by
    rintro _ rfl
    refine ⟨Server.legal_init, fun p => ?_⟩
    simp [Server.init, Server.viewers, num, Client.At]
  step := by
    rintro s e s' ⟨hl, h⟩ ⟨hs, hk⟩
    refine ⟨Version.legal_step V9.tidy hl hs, ?_⟩
    obtain ⟨newSocket, rfl, hpos, -, rfl⟩ | ⟨i, m, inp, r, rfl, hi, hd, hh, rfl⟩ := Version.step_cases hl hs
    · exact (countsViewers_accept_iff hl h hpos).2 hk
    · exact (V9.countsViewers_message_iff hl h hi hd hh).2 hk

/-- **`painting_counts` counts the clients at the paintings**, in every state of a
    run, iff no step of the run gives a left painting to a new client or a second
    painting to a client. -/
theorem V9.countsViewers_iff {tr : List (Server × Event)} {s : Server}
    (h : V9.version.system.Exec tr s) :
    System.Always Server.CountsViewers tr s ↔ ∀ x ∈ tr, V9.Keeps x.1 x.2 := by
  refine h.always_iff V9.inductive_keeps (fun _ hs => hs.2) ?_
  rintro s e s' ⟨hl, h⟩ hs hk
  obtain ⟨newSocket, rfl, hpos, -, rfl⟩ | ⟨i, m, inp, r, rfl, hi, hd, hh, rfl⟩ := Version.step_cases hl hs
  · exact fun h' => hk ((countsViewers_accept_iff hl h hpos).1 h')
  · exact fun h' => hk ((V9.countsViewers_message_iff hl h hi hd hh).1 h')

/-- A run with one viewer. -/
theorem V9.countsViewers_iff_view : ∃ tr s, s.paintingCounts 0 = 1 ∧
    (System.Always Server.CountsViewers tr s ↔ ∀ x ∈ tr, V9.Keeps x.1 x.2) := by
  obtain ⟨s, -, he, hs⟩ := System.exec_of_any .init V9.version.step
    [.connect 4, .message 0 (.data (commandText 1 .view 0))] (fun s => s.paintingCounts 0 = 1)
    (by decide +kernel)
  exact ⟨_, s, by simpa using hs, V9.countsViewers_iff he⟩

/-- A second `VIEW` takes the client away from the first painting, where it stays
    counted. -/
theorem V9.countsViewers_second_view : ∃ s, System.runFn V9.version.step .init
    [.connect 4, .message 0 (.data (commandText 1 .view 0)),
      .message 0 (.data (commandText 1 .view 1))] = some s ∧
    V9.version.system.Reachable s ∧ s.paintingCounts 0 = 1 ∧ s.viewers 0 = 0 := by
  obtain ⟨s, hr, he, hs⟩ := System.exec_of_any .init V9.version.step
    [.connect 4, .message 0 (.data (commandText 1 .view 0)), .message 0 (.data (commandText 1 .view 1))]
    (fun s => s.paintingCounts 0 = 1 ∧ s.viewers 0 = 0) (by decide +kernel)
  exact ⟨s, hr, ⟨_, he⟩, by simpa using hs⟩

end Gallery
