/-
  The gallery server of idz os 3/10: which leftovers of a closed connection its
  successor on the slot, and the other clients, can see.
-/
import OsCourse.Gallery.Service
import OsCourse.Lib.Observe
import Mathlib.Algebra.Order.BigOperators.Group.Finset
import Mathlib.Tactic.SplitIfs

namespace Gallery

open Transition Observe

/-! ## What is seen of a server -/

/-- The bytes that a call of the handler sends on a connection. -/
def Reaction.sentOn (r : Reaction) (fd : ℤ) : Text := (r.sends.filter (·.1 = fd)).flatMap (·.2)

/-- The counters after a step, and the bytes it sends on every connection. -/
structure Output where
  currentVisitors : ℤ
  paintingCounts : Painting → ℤ
  sent : ℤ → Text

def Reaction.output (r : Reaction) : Output :=
  ⟨r.server.currentVisitors, r.server.paintingCounts, r.sentOn⟩

/-- The server as a machine with output. -/
def Version.machine (w : Version) : Machine Server Event Output :=
  fun s e => (w.serve s e).map fun r => (r.server, r.output)

/-- The states agree on the counters, on which slots are open, and on all fields
    of the open slots. -/
structure Server.SameOpen (s t : Server) : Prop where
  currentVisitors : s.currentVisitors = t.currentVisitors
  paintingCounts : s.paintingCounts = t.paintingCounts
  clients : ∀ i, s.clients i = t.clients i ∨ ((s.clients i).fd = -1 ∧ (t.clients i).fd = -1)

/-- The fields that the server looks at are the same: `visitor_id` it does not
    look at, and `sent_exit` not in a monitor. -/
def Client.SameLeftovers (c d : Client) : Prop :=
  c.currentPainting = d.currentPainting ∧ c.isMonitor = d.isMonitor ∧
    (c.isMonitor = false → c.sentExit = d.sentExit)

/-! ## Alike states behave alike -/

/-- The states differ only in fields that the server does not look at. -/
structure Server.Alike (s t : Server) : Prop where
  currentVisitors : s.currentVisitors = t.currentVisitors
  paintingCounts : s.paintingCounts = t.paintingCounts
  fd : ∀ i, (s.clients i).fd = (t.clients i).fd
  leftovers : ∀ i, (s.clients i).SameLeftovers (t.clients i)

namespace Server.Alike
variable {s t : Server} {i : Slot} {c d : Client}

theorem isOpen (h : s.Alike t) (i : Slot) : s.IsOpen i ↔ t.IsOpen i := by rw [IsOpen, IsOpen, h.fd]

theorem legal (h : s.Alike t) (hs : s.Legal) : t.Legal := by
  intro i; simpa only [Client.Legal, (h.leftovers i).1] using hs i

theorem update (h : s.Alike t) (hfd : c.fd = d.fd) (hc : c.SameLeftovers d) {v v' : ℤ}
    (hv : v = v') {counts counts' : Painting → ℤ} (hcounts : counts = counts') :
    Server.Alike ⟨Function.update s.clients i c, v, counts⟩ ⟨Function.update t.clients i d, v', counts'⟩ where
  currentVisitors := hv
  paintingCounts := hcounts
  fd j := by
    by_cases hj : j = i
    · subst hj; simpa using hfd
    · simpa [hj] using h.fd j
  leftovers j := by
    by_cases hj : j = i
    · subst hj; simpa using hc
    · simpa [hj] using h.leftovers j

theorem setClient (h : s.Alike t) (hfd : c.fd = d.fd) (hc : c.SameLeftovers d) :
    (s.setClient i c).Alike (t.setClient i d) :=
  h.update hfd hc h.currentVisitors h.paintingCounts

theorem accept (h : s.Alike t) (newSocket : ℤ) : (s.accept newSocket).Alike (t.accept newSocket) := by
  have hf : s.freeSlot = t.freeSlot := by simp only [freeSlot, h.fd]
  unfold Server.accept
  rw [hf]
  cases t.freeSlot with
  | some i => exact h.setClient rfl (h.leftovers i)
  | none => exact h

theorem broadcastStatus (h : s.Alike t) (w : Version) : w.broadcastStatus s = w.broadcastStatus t := by
  have hst : statusText s = statusText t := by
    simp only [statusText, h.currentVisitors, h.paintingCounts]
  unfold Version.broadcastStatus
  refine congrArg₂ List.filterMap (funext fun i => ?_) rfl
  simp only [h.isOpen i, (h.leftovers i).2.1, h.fd i, hst]

/-- Two results from alike states, with the same text in `response`. -/
theorem reply (h : s.Alike t) (w : Version) (i : Slot) (response : Text) :
    (w.reply s i response).output = (w.reply t i response).output ∧
      (w.reply s i response).server.Alike (w.reply t i response).server := by
  refine ⟨?_, h⟩
  unfold Reaction.output Version.reply Reaction.sentOn
  simp only [h.currentVisitors, h.paintingCounts, h.broadcastStatus w, h.fd i]

theorem silent (h : s.Alike t) : (Version.silent s).output = (Version.silent t).output ∧
    (Version.silent s).server.Alike (Version.silent t).server := by
  refine ⟨?_, h⟩
  unfold Reaction.output Version.silent Reaction.sentOn
  simp only [h.currentVisitors, h.paintingCounts]

theorem broadcast (h : s.Alike t) (w : Version) :
    Reaction.output ⟨s, w.broadcastStatus s, []⟩ = Reaction.output ⟨t, w.broadcastStatus t, []⟩ ∧
      s.Alike t := by
  refine ⟨?_, h⟩
  unfold Reaction.output Reaction.sentOn
  simp only [h.currentVisitors, h.paintingCounts, h.broadcastStatus w]

end Server.Alike

theorem Client.SameLeftovers.counted {c d : Client} (h : c.SameLeftovers d) :
    V10.version.counted c = V10.version.counted d := by
  obtain ⟨-, h1, h2⟩ := h
  simp only [V10.version, ← h1]
  cases hc : c.isMonitor with
  | true => rfl
  | false => rw [h2 hc]

/-- The handler does the same with the same input in alike states. -/
theorem V10.alike_handles {s t : Server} (h : s.Alike t) {i : Slot} {inp : Input} {r r' : Reaction}
    (hs : V10.version.Handles s i inp r) (ht : V10.version.Handles t i inp r') :
    r.output = r'.output ∧ r.server.Alike r'.server := by
  have hi := h.leftovers i
  have hfd := h.fd i
  have hcp := hi.1
  cases hs with
  | closed hs => cases ht with
    | closed ht =>
      subst hs ht
      refine Server.Alike.broadcast ?_ _
      refine h.update ?_ ?_ ?_ ?_
      exacts [rfl, hi, by rw [hi.counted, h.currentVisitors], by rw [h.paintingCounts, hcp]]
  | monitor hs => cases ht with
    | monitor ht =>
      subst hs ht
      refine Server.Alike.broadcast ?_ _
      exact h.setClient hfd ⟨hcp, rfl, nofun⟩
  | ignored => cases ht with
    | ignored => exact h.silent
  | enterOk hlt => cases ht with
    | enterOk =>
      refine Server.Alike.reply ?_ _ _ _
      refine h.update ?_ ?_ ?_ ?_
      exacts [hfd, hi, by rw [h.currentVisitors], h.paintingCounts]
    | enterWait hge => exact absurd (h.currentVisitors ▸ hlt) hge
  | enterWait hge => cases ht with
    | enterOk hlt => exact absurd (h.currentVisitors ▸ hlt) hge
    | enterWait => refine Server.Alike.reply ?_ _ _ _; exact h.setClient hfd hi
  | @viewOk id p hlt =>
    generalize hn : (p.val : ℤ) = n at ht
    cases ht with
    | @viewOk _ q _ =>
      obtain rfl : p = q := Fin.ext (by omega)
      refine Server.Alike.reply ?_ _ _ _
      refine h.update ?_ ?_ ?_ ?_
      exacts [hfd, ⟨rfl, hi.2⟩, h.currentVisitors, by rw [h.paintingCounts]]
    | @viewWait _ q hge =>
      obtain rfl : p = q := Fin.ext (by omega)
      exact absurd (h.paintingCounts ▸ hlt) hge
    | viewNone hnone => rw [painting?_eq_some.2 hn.symm] at hnone; cases hnone
  | @viewWait id p hge =>
    generalize hn : (p.val : ℤ) = n at ht
    cases ht with
    | @viewOk _ q hlt =>
      obtain rfl : p = q := Fin.ext (by omega)
      exact absurd (h.paintingCounts ▸ hlt) hge
    | @viewWait _ q _ =>
      obtain rfl : p = q := Fin.ext (by omega)
      refine Server.Alike.reply ?_ _ _ _
      exact h.setClient hfd hi
    | viewNone hnone => rw [painting?_eq_some.2 hn.symm] at hnone; cases hnone
  | viewNone hnone => cases ht with
    | viewOk => rw [painting?_eq_some.2 rfl] at hnone; cases hnone
    | viewWait => rw [painting?_eq_some.2 rfl] at hnone; cases hnone
    | viewNone => refine Server.Alike.silent ?_; exact h.setClient hfd hi
  | left hp => cases ht with
    | left =>
      refine Server.Alike.reply ?_ _ _ _
      refine h.update ?_ ?_ ?_ ?_
      exacts [hfd, ⟨rfl, hi.2⟩, h.currentVisitors, by rw [h.paintingCounts, hcp]]
    | notLeft hp' => exact absurd (hcp.trans hp') hp
  | notLeft hp => cases ht with
    | left hp' => exact absurd (hcp.symm.trans hp) hp'
    | notLeft => refine Server.Alike.silent ?_; exact h.setClient hfd hi
  | exit => cases ht with
    | exit =>
      refine Server.Alike.reply ?_ _ _ _
      refine h.update ?_ ?_ ?_ ?_
      exacts [hfd, ⟨hcp, hi.2.1, fun _ => rfl⟩, by rw [h.currentVisitors], by rw [h.paintingCounts, hcp]]
  | unknown => cases ht with
    | unknown => refine Server.Alike.silent ?_; exact h.setClient hfd hi

/-- A message to a slot that is open, which the server can read. -/
theorem Version.machine_message {w : Version} {s : Server} (hs : s.Legal) {i : Slot} {m : Read} {inp : Input}
    (hi : s.IsOpen i) (hm : m.Fits) (hd : decode m = .ok inp) :
    ∃ r, w.machine s (.message i m) = some (r.server, r.output) ∧ w.Handles s i inp r := by
  obtain ⟨r, hr, hh⟩ := w.react_spec (hs i) inp
  refine ⟨r, ?_, hh⟩
  simp [machine, serve, hi, hm, handleClientMessage, hd, Except.bind, hr, Except.toOption]

/-- **Alike states are indistinguishable.** -/
theorem V10.indist_of_alike {s t : Server} (h : s.Alike t) (hs : s.Legal) :
    Indist V10.version.machine s t := by
  refine Indist.of_bisim (R := fun s t => s.Alike t ∧ s.Legal) ?_ ⟨h, hs⟩
  rintro s t e ⟨h, hs⟩
  cases e with
  | connect newSocket =>
    simp only [Version.machine, Version.serve, h.fd]
    split_ifs
    · have ha := (h.accept newSocket).silent
      exact ⟨ha.1, ha.2, hs.accept _⟩
    · trivial
  | message i m =>
    by_cases hi : s.IsOpen i ∧ m.Fits
    · cases hd : decode m with
      | error f =>
        simp [Version.machine, Version.serve, Version.handleClientMessage, hd, Except.bind, Except.toOption, Match]
      | ok inp =>
        obtain ⟨r, hr, hh⟩ := V10.version.machine_message hs hi.1 hi.2 hd
        obtain ⟨r', hr', hh'⟩ := V10.version.machine_message (h.legal hs) ((h.isOpen i).1 hi.1) hi.2 hd
        rw [hr, hr']
        obtain ⟨ho, ha⟩ := V10.alike_handles h hh hh'
        exact ⟨ho, ha, hh.legal V10.tidy hs⟩
    · have hi' : ¬ (t.IsOpen i ∧ m.Fits) := by rwa [← h.isOpen]
      simp [Version.machine, Version.serve, hi, hi', Match]

/-! ## What shows of the leftovers -/

/-- Indistinguishable states with the same counters and the same open slots. -/
structure Server.Twins (s t : Server) : Prop where
  legal : s.Legal
  legal' : t.Legal
  currentVisitors : s.currentVisitors = t.currentVisitors
  paintingCounts : s.paintingCounts = t.paintingCounts
  fd : ∀ i, (s.clients i).fd = (t.clients i).fd
  indist : Indist V10.version.machine s t

theorem exists_fresh (s : Server) : ∃ fd : ℤ, 0 < fd ∧ ∀ i, (s.clients i).fd ≠ fd := by
  refine ⟨1 + (∑ i, (s.clients i).fd.natAbs : ℕ), by omega, fun i hi => ?_⟩
  have := Finset.single_le_sum (f := fun i => (s.clients i).fd.natAbs) (fun _ _ => Nat.zero_le _)
    (Finset.mem_univ i)
  omega

/-- A decrement shows whom it was for. -/
theorem V10.released_inj {c d : Client} (hc : c.Legal) (hd : d.Legal) {counts : Painting → ℤ}
    (h : V10.version.released counts c.currentPainting = V10.version.released counts d.currentPainting) :
    c.currentPainting = d.currentPainting := by
  have key : ∀ {m n : ℤ} (p : Painting), m = p.val →
      V10.version.released counts m = V10.version.released counts n → n = p.val := by
    intro m n p hm he
    have := congrFun he p
    simp only [Version.released, if_pos hm, V10.version] at this
    split_ifs at this with hn
    · exact hn
    · omega
  rcases hc with hc | ⟨p, hc⟩
  · rcases hd with hd | ⟨q, hd⟩
    · rw [hc, hd]
    · rw [hd]; exact key q hd h.symm
  · rw [hc]; exact (key p hc h).symm

theorem statusText_ne_nil (s : Server) : statusText s ≠ [] := by
  obtain ⟨c, u, h, -⟩ := Text.fmtInt_cons s.currentVisitors
  simp [statusText, h, List.intercalate, List.finRange_succ]

/-- The bytes of the broadcast on the connection of slot `i`, when no other slot
    has that connection. -/
theorem broadcast_eq_nil_iff {w : Version} {s : Server} {i : Slot} (hi : s.IsOpen i)
    (huniq : ∀ j, (s.clients j).fd = (s.clients i).fd → j = i) :
    ((w.broadcastStatus s).filter (·.1 = (s.clients i).fd)).flatMap (·.2) = [] ↔
      (s.clients i).isMonitor = false := by
  simp only [List.flatMap_eq_nil_iff, List.mem_filter, Version.broadcastStatus, List.mem_filterMap,
    List.mem_finRange, true_and, Option.ite_none_right_eq_some, Option.some.injEq, decide_eq_true_eq]
  constructor
  · intro h
    by_contra hm
    have := h ((s.clients i).fd, statusText s ++ w.statusEnd) ⟨⟨i, ⟨hi, by simpa using hm⟩, rfl⟩, rfl⟩
    exact statusText_ne_nil s (List.append_eq_nil_iff.1 this).1
  · rintro hm _ ⟨⟨j, ⟨-, hj⟩, rfl⟩, hfd⟩
    rw [huniq j hfd, hm] at hj; cases hj

/-- A reply on the connection of slot `i`, when no other slot has that
    connection: the text, followed by the status line if the slot has a monitor. -/
theorem V10.sentOn_reply {s s' : Server} {i : Slot} (hfd : ∀ j, (s'.clients j).fd = (s.clients j).fd)
    (hm : (s'.clients i).isMonitor = (s.clients i).isMonitor) (hi : s.IsOpen i)
    (huniq : ∀ j, (s.clients j).fd = (s.clients i).fd → j = i) (text : Text) :
    ∃ b, (V10.version.reply s' i text).sentOn (s.clients i).fd = text ++ b ∧
      (b = [] ↔ (s.clients i).isMonitor = false) := by
  have hb := broadcast_eq_nil_iff (w := V10.version) (s := s') (i := i) (by rwa [Server.IsOpen, hfd])
    (by simpa only [hfd] using huniq)
  rw [hm, hfd] at hb
  exact ⟨_, by simp [Reaction.sentOn, Version.reply, V10.version, hfd], hb⟩

theorem V10.sentOn_enter {s : Server} {i : Slot} {id n : ℤ} {r : Reaction}
    (hh : V10.version.Handles s i (.command id (some .enter) n) r) (hi : s.IsOpen i)
    (huniq : ∀ j, (s.clients j).fd = (s.clients i).fd → j = i) :
    ∃ b, r.sentOn (s.clients i).fd =
        (if s.currentVisitors < maxVisitors then enterOk id else enterWait id) ++ b ∧
      (b = [] ↔ (s.clients i).isMonitor = false) := by
  have hsame : ∀ j, (Function.update s.clients i { s.clients i with visitorId := id } j).fd =
      (s.clients j).fd := by
    intro j
    by_cases hj : j = i
    · subst hj; simp
    · simp [hj]
  cases hh with
  | enterOk hlt => rw [if_pos hlt]; exact V10.sentOn_reply hsame (by simp) hi huniq _
  | enterWait hge => rw [if_neg hge]; exact V10.sentOn_reply hsame (by simp) hi huniq _

namespace Server.Twins
variable {s t : Server} {i : Slot}

theorem accept (h : s.Twins t) {newSocket : ℤ} (hpos : 0 < newSocket)
    (hfresh : ∀ i, (s.clients i).fd ≠ newSocket) : (s.accept newSocket).Twins (t.accept newSocket) := by
  have hs : V10.version.machine s (.connect newSocket) =
      some (s.accept newSocket, (Version.silent (s.accept newSocket)).output) := by
    simp only [Version.machine, Version.serve, if_pos (And.intro hpos hfresh)]; rfl
  have ht : V10.version.machine t (.connect newSocket) =
      some (t.accept newSocket, (Version.silent (t.accept newSocket)).output) := by
    simp only [h.fd] at hfresh
    simp only [Version.machine, Version.serve, if_pos (And.intro hpos hfresh)]; rfl
  refine ⟨h.legal.accept _, h.legal'.accept _, by simp [h.currentVisitors], by simp [h.paintingCounts],
    fun j => ?_, (h.indist.step hs ht).2⟩
  have hf : s.freeSlot = t.freeSlot := by simp only [freeSlot, h.fd]
  unfold Server.accept
  rw [hf]
  cases t.freeSlot with
  | none => exact h.fd j
  | some k =>
    by_cases hj : j = k
    · subst hj; simp
    · simpa [hj] using h.fd j

/-- The results of a message to an open slot. -/
theorem message (h : s.Twins t) {m : Read} {inp : Input} (hi : s.IsOpen i) (hm : m.Fits)
    (hd : decode m = .ok inp) : ∃ r r', V10.version.Handles s i inp r ∧ V10.version.Handles t i inp r' ∧
      r.output = r'.output := by
  obtain ⟨r, hr, hh⟩ := V10.version.machine_message h.legal hi hm hd
  obtain ⟨r', hr', hh'⟩ := V10.version.machine_message h.legal' (by rwa [IsOpen, ← h.fd]) hm hd
  exact ⟨r, r', hh, hh', (h.indist.step hr hr').1⟩

/-- `ENTER` is answered alike, and so the status line goes to slot `i` in both
    states or in neither. -/
theorem isMonitor (h : s.Twins t) (hi : s.IsOpen i)
    (huniq : ∀ j, (s.clients j).fd = (s.clients i).fd → j = i) :
    (s.clients i).isMonitor = (t.clients i).isMonitor := by
  obtain ⟨r, r', hh, hh', ho⟩ := h.message (m := .data (commandText 0 .enter (-1))) hi (by decide)
    (decode_commandText .enter (by decide) (by decide))
  have hi' : t.IsOpen i := by rwa [IsOpen, ← h.fd]
  have huniq' : ∀ j, (t.clients j).fd = (t.clients i).fd → j = i := by
    intro j hj; rw [← h.fd, ← h.fd] at hj; exact huniq j hj
  -- both replies are the same text, followed by what is broadcast on the connection
  obtain ⟨b, hb, hm⟩ := V10.sentOn_enter hh hi huniq
  obtain ⟨b', hb', hm'⟩ := V10.sentOn_enter hh' hi' huniq'
  have := congrFun (congrArg Output.sent ho) (s.clients i).fd
  simp only [Reaction.output] at this
  rw [hb, h.fd i, hb', h.currentVisitors] at this
  obtain rfl := List.append_cancel_left this
  cases hsm : (s.clients i).isMonitor with
  | false => exact (hm'.1 (hm.2 hsm)).symm
  | true =>
    cases htm : (t.clients i).isMonitor with
    | false => rw [hm.1 (hm'.2 htm)] at hsm; cases hsm
    | true => rfl

/-- **An open slot shows its fields**, when it is closed and when it is served. -/
theorem sameLeftovers (h : s.Twins t) (hi : s.IsOpen i)
    (huniq : ∀ j, (s.clients j).fd = (s.clients i).fd → j = i) :
    (s.clients i).SameLeftovers (t.clients i) := by
  obtain ⟨r, r', hh, hh', ho⟩ := h.message (m := .closed) hi trivial rfl
  have hm := h.isMonitor hi huniq
  cases hh with
  | closed hs => cases hh' with
    | closed ht =>
      subst hs ht
      refine ⟨?_, hm, ?_⟩
      · have := congrArg Output.paintingCounts ho
        dsimp only [Reaction.output] at this
        rw [h.paintingCounts] at this
        exact V10.released_inj (h.legal i) (h.legal' i) this
      · intro hsm
        have := congrArg Output.currentVisitors ho
        dsimp only [Reaction.output] at this
        rw [h.currentVisitors] at this
        have htm := hm.symm.trans hsm
        simp only [V10.version, hsm, htm, Bool.not_false, Bool.true_and] at this
        cases hse : (s.clients i).sentExit <;> cases hte : (t.clients i).sentExit <;>
          simp [hse, hte] at this ⊢
        omega

/-- A new connection is put into the first free slot. -/
theorem fill (h : s.Twins t) (hi : (s.clients i).fd = -1) (hlt : ∀ j < i, s.IsOpen j) :
    ∃ fd, 0 < fd ∧ (∀ j, (s.clients j).fd ≠ fd) ∧
      (s.setClient i { s.clients i with fd := fd }).Twins (t.setClient i { t.clients i with fd := fd }) := by
  obtain ⟨fd, hpos, hfresh⟩ := exists_fresh s
  have hfree := freeSlot_of hi hlt
  have hfree' : t.freeSlot = some i := by rw [← hfree]; simp only [freeSlot, h.fd]
  have hs' := h.accept hpos hfresh
  unfold Server.accept at hs'
  rw [hfree, hfree'] at hs'
  exact ⟨fd, hpos, hfresh, hs'⟩

/-- A closed slot shows its leftovers to the client that is given it: the free
    slots before it are filled, by induction on how many there may be. -/
theorem sameLeftovers_of_closed : ∀ (m : ℕ) {s t : Server}, s.Twins t → ∀ {i : Slot},
    (s.clients i).fd = -1 → (∀ j : Slot, j.val + m < i.val → s.IsOpen j) →
      (s.clients i).SameLeftovers (t.clients i)
  | 0, s, t, h, i, hi, hbelow => by
    obtain ⟨fd, hpos, hfresh, hs'⟩ := h.fill hi fun j hj => hbelow j (by simpa using hj)
    have := hs'.sameLeftovers (i := i) (by simp [IsOpen]; omega) (by
      intro j hj
      by_contra hji
      simp [hji] at hj
      exact hfresh j hj)
    simpa [Client.SameLeftovers] using this
  | m + 1, s, t, h, i, hi, hbelow => by
    by_cases hall : ∀ j : Slot, j.val + m < i.val → s.IsOpen j
    · exact sameLeftovers_of_closed m h hi hall
    · obtain ⟨j, hj, hjc⟩ : ∃ j : Slot, j.val + m < i.val ∧ (s.clients j).fd = -1 := by
        simpa only [not_forall, IsOpen, not_not, exists_prop] using hall
      -- `j` is the first free slot
      have hji : ¬ (j.val + (m + 1) < i.val) := fun hlt => hbelow j hlt hjc
      obtain ⟨fd, hpos, -, hs'⟩ := h.fill hjc fun k hk => hbelow k (by have : k.val < j.val := hk; omega)
      have hne : i ≠ j := by rintro rfl; omega
      have := sameLeftovers_of_closed m hs' (i := i) (by simpa [hne] using hi) (by
        intro k hk
        by_cases hkj : k = j
        · subst hkj; simp [IsOpen]; omega
        · have : k.val ≠ j.val := fun he => hkj (Fin.ext he)
          simpa [IsOpen, hkj] using hbelow k (by omega))
      simpa [hne] using this

end Server.Twins

/-- **Isolation of the slots.**  Two states of a server that agree on the counters
    and the open slots show the same counters and send the same bytes on every
    connection, whatever happens next, iff the leftovers of their closed slots
    agree as far as the server looks at them. -/
theorem V10.isolation_iff {s t : Server} (hs : V10.version.system.Reachable s)
    (ht : V10.version.system.Reachable t) (h : s.SameOpen t) :
    Indist V10.version.machine s t ↔
      ∀ i, ¬ s.IsOpen i → (s.clients i).SameLeftovers (t.clients i) := by
  have hl := Version.legal_reachable V10.tidy hs
  have hfd : ∀ i, (s.clients i).fd = (t.clients i).fd := by
    intro i
    rcases h.clients i with he | ⟨he, he'⟩
    · rw [he]
    · rw [he, he']
  constructor
  · intro hind i hi
    have htw : s.Twins t := ⟨hl, Version.legal_reachable V10.tidy ht, h.currentVisitors,
      h.paintingCounts, hfd, hind⟩
    exact htw.sameLeftovers_of_closed maxClients (not_not.1 hi) fun j hj => absurd hj (by omega)
  · intro hleft
    refine V10.indist_of_alike ⟨h.currentVisitors, h.paintingCounts, hfd, fun i => ?_⟩ hl
    by_cases hi : s.IsOpen i
    · rcases h.clients i with he | ⟨he, -⟩
      · rw [he]; exact ⟨rfl, rfl, fun _ => rfl⟩
      · exact absurd he hi
    · exact hleft i hi

/-- A new server, and one that a monitor has left. -/
def monitorLeft : List Event := [.connect 4, .message 0 (.data monitorText), .message 0 .closed]

theorem V10.isolation_iff_monitorLeft : ∃ s t,
    System.runFn V10.version.step .init monitorLeft = some t ∧
    (Indist V10.version.machine s t ↔
      ∀ i, ¬ s.IsOpen i → (s.clients i).SameLeftovers (t.clients i)) := by
  obtain ⟨t, hr, ht, h⟩ := System.exec_of_any .init V10.version.step monitorLeft
    (fun t => t.currentVisitors = 0 ∧ t.paintingCounts = Server.init.paintingCounts ∧
      ∀ i, (t.clients i).fd = -1) (by decide +kernel)
  obtain ⟨h1, h2, h3⟩ := of_decide_eq_true h
  exact ⟨.init, t, hr, V10.isolation_iff (.init rfl) ⟨_, ht⟩ ⟨h1.symm, h2.symm, fun i => .inr ⟨rfl, h3 i⟩⟩⟩

/-- **A visitor on the slot of a monitor is sent the status line**: the first
    `ENTER` of the new client is answered with one message more. -/
theorem V10.not_isolated : ∃ t, System.runFn V10.version.step .init monitorLeft = some t ∧
    V10.version.system.Reachable t ∧ Server.init.SameOpen t ∧
    outputs V10.version.machine .init [.connect 4, .message 0 (.data (commandText 1 .enter (-1)))] ≠
      outputs V10.version.machine t [.connect 4, .message 0 (.data (commandText 1 .enter (-1)))] := by
  obtain ⟨t, hr, ht, h⟩ := System.exec_of_any .init V10.version.step monitorLeft
    (fun t => (t.currentVisitors = 0 ∧ t.paintingCounts = Server.init.paintingCounts ∧
      ∀ i, (t.clients i).fd = -1) ∧
      (outputs V10.version.machine .init
        [.connect 4, .message 0 (.data (commandText 1 .enter (-1)))]).map (fun o => o.sent 4) ≠
      (outputs V10.version.machine t
        [.connect 4, .message 0 (.data (commandText 1 .enter (-1)))]).map fun o => o.sent 4)
    (by decide +kernel)
  obtain ⟨⟨h1, h2, h3⟩, h4⟩ := of_decide_eq_true h
  exact ⟨t, hr, ⟨_, ht⟩, ⟨h1.symm, h2.symm, fun i => .inr ⟨rfl, h3 i⟩⟩, fun he => h4 (by rw [he])⟩

end Gallery
