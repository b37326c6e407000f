/-
  Normal runs of the gallery: visitors that run `visit_gallery` to its end, with
  no monitors, signals or timeouts, and whole messages.
-/
import OsCourse.Gallery.Admission
import OsCourse.Gallery.Replies

namespace Gallery

open Transition Counting

/-! ## One command in its place -/

/-- What the servers have in common. -/
structure Version.Sound (w : Version) : Prop where
  tidy : w.Tidy
  dec : ∀ n, 0 < n → w.dec n = n - 1
  counted : ∀ c : Client, c.sentExit = true → w.counted c = false

theorem V9.sound : V9.version.Sound where
  tidy := V9.tidy
  dec n hn := if_pos hn
  counted c hc := by simp [V9.version, hc]

theorem V10.sound : V10.version.Sound where
  tidy := V10.tidy
  dec _ _ := rfl
  counted c hc := by simp [V10.version, hc]

/-- A command is served: the counters and the slot follow the visitor from `stay`
    to `stay'`. -/
structure Served (s : Server) (i : Slot) (x : Reaction) (stay stay' : Stay) : Prop where
  painting : (x.server.clients i).currentPainting = stay'.painting
  sentExit : stay' = .gone → (x.server.clients i).sentExit = true
  visitors : x.server.currentVisitors + stay.inside.toNat = s.currentVisitors + stay'.inside.toNat
  visitors_le : x.server.currentVisitors ≤ maxVisitors
  counts : ∀ p, x.server.paintingCounts p + (stay.viewing p).toNat =
    s.paintingCounts p + (stay'.viewing p).toNat
  counts_le : ∀ p, x.server.paintingCounts p ≤ maxPaintingVisitors

/-- The state in which the server serves a visitor at `stay` on slot `i`. -/
structure Server.Serves (s : Server) (i : Slot) (stay : Stay) : Prop where
  painting : (s.clients i).currentPainting = stay.painting
  visitors : stay.inside = true → 0 < s.currentVisitors
  visitors_le : s.currentVisitors ≤ maxVisitors
  counts : ∀ p, stay.viewing p = true → 0 < s.paintingCounts p
  counts_le : ∀ p, s.paintingCounts p ≤ maxPaintingVisitors

section Serving
variable {w : Version} {s : Server} {i : Slot} {id n : ℤ} {x : Reaction} {k : Call} {p : Painting}

/-- A visitor asks for a place inside, with `ENTER` the first time and later. -/
theorem Version.Handles.served_enter (hs : s.Serves i .out) (hh : w.Handles s i (.command id (some .enter) n) x)
    (hok : Answer id k (Gallery.enterOk id) .hall) (hwait : Answer id k (Gallery.enterWait id) .out) :
    ∃ stay, Answer id k x.response stay ∧ Served s i x .out stay := by
  have hp := hs.painting
  cases hh with
  | enterOk hlt =>
    refine ⟨.hall, hok, ⟨?_, fun h => (by cases h), ?_, ?_, ?_, hs.counts_le⟩⟩
    · simpa [reply, Stay.painting] using hp
    · simp [reply, Stay.inside]
    · simp [reply]; omega
    · intro p
      simp [reply, Stay.viewing]
  | enterWait hge =>
    refine ⟨.out, hwait, ⟨?_, fun h => (by cases h), ?_, hs.visitors_le, ?_, hs.counts_le⟩⟩
    · simpa [reply] using hp
    · simp [reply]
    · intro p
      simp [reply]

theorem Version.Handles.served_view (hs : s.Serves i .hall) (hn : (p.val : ℤ) = n)
    (hh : w.Handles s i (.command id (some .view) n) x) :
    ∃ stay, Answer id (.view p) x.response stay ∧ Served s i x .hall stay := by
  have hp := hs.painting
  cases hh with
  | @viewOk _ q hlt =>
    obtain rfl : p = q := Fin.ext (by omega)
    refine ⟨.at p, .viewOk p, ⟨?_, fun h => (by cases h), ?_, hs.visitors_le, ?_, ?_⟩⟩
    · simp [reply, Stay.painting]
    · simp [reply, Stay.inside]
    · intro q
      by_cases hq : q = p
      · subst hq; simp [reply, Stay.viewing]
      · simp [reply, Stay.viewing, hq, Ne.symm hq]
    · intro q
      by_cases hq : q = p
      · subst hq; simp [reply]; omega
      · simpa [reply, hq] using hs.counts_le q
  | @viewWait _ q hge =>
    obtain rfl : p = q := Fin.ext (by omega)
    refine ⟨.hall, .viewWait p, ⟨?_, fun h => (by cases h), ?_, hs.visitors_le, ?_, hs.counts_le⟩⟩
    · simpa [reply, Stay.painting] using hp
    · simp [reply]
    · intro q
      simp [reply]
  | viewNone hnone => rw [painting?_eq_some.2 hn.symm] at hnone; cases hnone

theorem Version.Handles.served_leave (hw : w.Sound) (hs : s.Serves i (.at p))
    (hh : w.Handles s i (.command id (some .leavePainting) n) x) :
    ∃ stay, Answer id (.leavePainting p) x.response stay ∧ Served s i x (.at p) stay := by
  have hp : (s.clients i).currentPainting = p.val := hs.painting
  cases hh with
  | notLeft hnone => omega
  | left =>
    have hpos := hs.counts p (by simp [Stay.viewing])
    have hrel : ∀ q, w.released s.paintingCounts (s.clients i).currentPainting q =
        s.paintingCounts q - (Stay.viewing q (.at p)).toNat := by
      intro q
      by_cases hq : p = q
      · subst hq; simp [released, hp, hw.dec _ hpos, Stay.viewing]
      · have : ¬ (p.val : ℤ) = q.val := fun he => hq (Fin.ext (by omega))
        simp [released, hp, this, Stay.viewing, hq]
    refine ⟨.hall, .left p, ⟨?_, fun h => (by cases h), ?_, hs.visitors_le, ?_, ?_⟩⟩
    · simp [reply, Stay.painting]
    · simp [reply, Stay.inside]
    · intro q
      simp [reply, hrel]; simp [Stay.viewing]
    · intro q
      have := hs.counts_le q
      simp only [reply, hrel]
      omega

theorem Version.Handles.served_exit (hw : w.Sound) (hs : s.Serves i .hall)
    (hh : w.Handles s i (.command id (some .exit) n) x) :
    ∃ stay, Answer id .exit x.response stay ∧ Served s i x .hall stay := by
  have hp : (s.clients i).currentPainting = -1 := hs.painting
  have hpos := hs.visitors rfl
  cases hh with
  | exit =>
    refine ⟨.gone, .exit, ⟨?_, ?_, ?_, ?_, ?_, ?_⟩⟩
    · rcases hw.tidy (-1) with h | h <;> simp [reply, hp, h, Stay.painting]
    · intro _
      simp [reply]
    · simp [reply, hw.dec _ hpos, Stay.inside]
    · have := hs.visitors_le
      simp only [reply, hw.dec _ hpos]
      omega
    · intro q
      simp [reply, hp, Stay.viewing]
    · intro q
      simpa [reply, hp] using hs.counts_le q

/-- **A command that is in its place is served**: the visitor makes the call `k`
    where it is before such a call. -/
theorem Version.Handles.served (hw : w.Sound) (hs : s.Serves i k.before)
    (hh : w.Handles s i (.command id (some k.action) k.number) x) :
    ∃ stay, Answer id k x.response stay ∧ Served s i x k.before stay := by
  cases k with
  | enter => exact hh.served_enter hs .enterOk .enterWait
  | reenter => exact hh.served_enter hs .reenterOk .reenterWait
  | view p => exact hh.served_view hs rfl
  | leavePainting p => exact hh.served_leave hw hs
  | exit => exact hh.served_exit hw hs

end Serving

/-! ## A visitor and its connection -/

variable {cw : ClientVersion}

/-- A visitor, its connection, and where it is: at most one message is on the
    way. -/
inductive Local (cw : ClientVersion) (id : ℤ) (v : Visitor) (c : Conn) : Stay → Prop
  | start (hpc : v.pc = .start) (hup : c.up = []) (hdown : c.down = []) (hcl : c.closed = false) :
      Local cw id v c .out
  | ready {stay} (hr : v.Ready stay) (hup : c.up = []) (hdown : c.down = []) (hcl : c.closed = false) :
      Local cw id v c stay
  | asked {k stay} (hpc : v.pc = .wait k 0) (hk : k.before = stay) (hup : c.up = [k.message id])
      (hdown : c.down = []) (hcl : c.closed = false) : Local cw id v c stay
  | told {k r stay} (hpc : v.pc = .wait k 0) (ha : Answer id k r stay) (hup : c.up = [])
      (hdown : c.down = [r]) (hcl : c.closed = false) : Local cw id v c stay
  | gone (hpc : v.pc = .closed) (hup : c.up = [] ∨ (cw.atExit = true ∧ c.up = [Call.exit.message id]))
      (hcl : c.closed = true) : Local cw id v c .gone

/-- What is said of a visitor does not depend on the server's end. -/
theorem Local.withSock {id : ℤ} {v : Visitor} {c : Conn} {stay : Stay} (h : Local cw id v c stay) (x : Sock) :
    Local cw id v { c with sock := x } stay := by
  cases h with
  | start hpc hup hdown hcl => exact .start hpc hup hdown hcl
  | ready hr hup hdown hcl => exact .ready hr hup hdown hcl
  | asked hpc hk hup hdown hcl => exact .asked hpc hk hup hdown hcl
  | told hpc ha hup hdown hcl => exact .told hpc ha hup hdown hcl
  | gone hpc hup hcl => exact .gone hpc hup hcl

/-- What a visitor does in a normal run: nothing interrupts it, and it receives
    whole messages. -/
def Conn.NormalAct (c : Conn) : Act → Prop
  | .recv buf => c.down.head? = some buf
  | .connect | .go _ => True
  | _ => False

instance (c : Conn) : DecidablePred c.NormalAct
  | .recv _ => inferInstanceAs (Decidable (_ = _))
  | .connect | .go _ => inferInstanceAs (Decidable True)
  | .timeout | .fail | .signal | .kill => inferInstanceAs (Decidable False)

/-- A step of the visitor. -/
theorem Local.step (hcw : cw.Gentle) {id : ℤ} {v : Visitor} {c c' : Conn} {stay : Stay} {a : Act}
    {e : Effect Visitor} (h : Local cw id v c stay) (hs : v.shutdown = false) (hn : c.NormalAct a)
    (he : Visitor.step cw id v a = some e) (hc : c.call a = some c') :
    Local cw id e.state (c'.push e) stay ∧ e.state.shutdown = false := by
  unfold Visitor.step at he
  cases h with
  | start hpc hup hdown hcl =>
    rw [hpc] at he
    cases a with
    | connect =>
      obtain rfl := Option.some.inj he
      obtain ⟨-, hc⟩ := Option.ite_none_right_eq_some.1 hc
      obtain rfl := Option.some.inj hc
      exact ⟨.ready (.inl ⟨.enter, rfl, rfl⟩) (by simp [Conn.push, Effect.goOn, hup]) hdown
        (by simp [Conn.push, Effect.goOn, hcl]), hs⟩
    | go | recv => cases he
    | _ => exact hn.elim
  | ready hr hup hdown hcl =>
    cases a with
    | go p =>
      obtain rfl := Option.some.inj hc
      obtain ⟨k, hpc, rfl⟩ | ⟨hpc, rfl⟩ | ⟨hpc, rfl⟩ := hr
      · simp only [hpc, hs] at he
        obtain rfl := Option.some.inj he
        exact ⟨.asked rfl rfl (by simp [Conn.push, hup]) hdown (by simp [Conn.push, hcl]), rfl⟩
      · simp only [hpc] at he
        obtain rfl := Option.some.inj he
        refine ⟨.ready ?_ (by simp [Conn.push, Effect.goOn, hup]) hdown
          (by simp [Conn.push, Effect.goOn, hcl]), ?_⟩
        · simp only [Effect.goOn]
          split_ifs
          · exact Visitor.viewLoop_ready hs
          · exact .inl ⟨.view p, rfl, rfl⟩
        · simp only [Effect.goOn]
          split_ifs
          · rw [Visitor.viewLoop_shutdown]; exact hs
          · exact hs
      · simp only [hpc] at he
        obtain rfl := Option.some.inj he
        cases hat : cw.atExit with
        | true =>
          exact ⟨.gone rfl (.inr ⟨hat, by simp [Conn.push, Visitor.cleanup, hup]⟩)
            (by simp [Conn.push, Visitor.cleanup]), hs⟩
        | false =>
          exact ⟨.gone rfl (.inl (by simp [Conn.push, Visitor.leave, hup]))
            (by simp [Conn.push, Visitor.leave]), hs⟩
    | connect | recv =>
      obtain ⟨k, hpc, -⟩ | ⟨hpc, -⟩ | ⟨hpc, -⟩ := hr
      all_goals rw [hpc] at he; cases he
    | _ => exact hn.elim
  | asked hpc hk hup hdown hcl =>
    rw [hpc] at he
    cases a with
    | connect | go => cases he
    | recv buf => rw [Conn.NormalAct, hdown] at hn; cases hn
    | _ => exact hn.elim
  | told hpc ha hup hdown hcl =>
    rw [hpc] at he
    cases a with
    | connect | go => cases he
    | recv buf =>
      rw [Conn.NormalAct, hdown] at hn
      obtain rfl := Option.some.inj hn
      simp only [ha.cstr, ha.not_refused hcw] at he
      obtain rfl := Option.some.inj he
      obtain ⟨-, hc⟩ := Option.ite_none_right_eq_some.1 hc
      obtain rfl := Option.some.inj hc
      refine ⟨.ready (ha.ready hs) (by simp [Conn.push, Effect.goOn, hup]) ?_
        (by simp [Conn.push, Effect.goOn, hcl]), ?_⟩
      · simp only [Conn.push, hdown]; exact dropBytes_length ha.ne_nil []
      · simp only [Effect.goOn]; rw [Visitor.afterCall_shutdown]; exact hs
    | _ => exact hn.elim
  | gone hpc hup hcl =>
    rw [hpc] at he
    cases a with
    | connect | go | recv => cases he
    | _ => exact hn.elim

/-- The log follows the visitor. -/
theorem Answer.entry {ι : Type} {id : ℤ} {k : Call} {r : Text} {stay : Stay} (h : Answer id k r stay) (u : ι) :
    Entry.inside ⟨u, .command id (some k.action) k.number, r⟩ k.before.inside = stay.inside ∧
      ∀ p, Entry.viewing ⟨u, .command id (some k.action) k.number, r⟩ p (k.before.viewing p) =
        stay.viewing p := by
  cases h with
  | enterOk | reenterOk => exact ⟨Entry.inside_enterOk .., fun _ => rfl⟩
  | enterWait | reenterWait => exact ⟨Entry.inside_enterWait .., fun _ => rfl⟩
  | viewOk p =>
    refine ⟨rfl, fun q => ?_⟩
    simp only [Entry.viewing, Call.action, Call.number, Call.before, Stay.viewing, beq_self_eq_true,
      Bool.and_true, Bool.false_or]
    rw [Bool.eq_iff_iff, beq_iff_eq, decide_eq_true_eq, Fin.ext_iff]
    omega
  | viewWait p =>
    have : (Gallery.viewWait id p.val == Gallery.viewOk id p.val) = false :=
      beq_eq_false_iff_ne.2 (viewOk_ne_viewWait id p.val)
    refine ⟨rfl, fun q => ?_⟩
    simp [Entry.viewing, Call.action, Call.number, Call.before, Stay.viewing, this]
  | left p => exact ⟨rfl, fun _ => rfl⟩
  | exit => exact ⟨rfl, fun _ => rfl⟩

/-! ## The network in a normal run -/

variable {ι : Type} [DecidableEq ι]

/-- The steps of a normal run: the visitors are not interrupted, every message is
    received whole, no connection is refused for want of a slot, and the end of a
    stream is read after the rest of it. -/
def Net.Normal (s : Net ι Visitor) : Label ι → Prop
  | .client u a => (s.conn u).NormalAct a
  | .accept _ _ => ∃ i, ¬ s.server.IsOpen i
  | .server u (.data buf) => (s.conn u).up.head? = some buf
  | .server u .closed => (s.conn u).up = []

instance (s : Net ι Visitor) : DecidablePred s.Normal
  | .client u a => inferInstanceAs (Decidable ((s.conn u).NormalAct a))
  | .accept _ _ => inferInstanceAs (Decidable (∃ i, ¬ s.server.IsOpen i))
  | .server _ (.data _) | .server _ .closed => inferInstanceAs (Decidable (_ = _))

/-- The visitor `u` is at `stay`: so are its program and its connection, what it was
    answered, and its slot. -/
structure Fine (cw : ClientVersion) (ids : ι → CInt) (s : Net ι Visitor) (u : ι) (stay : Stay) : Prop where
  loc : Local cw (ids u) (s.proc u) (s.conn u) stay
  shutdown : (s.proc u).shutdown = false
  inside : inside s.log u = stay.inside
  viewing : ∀ p, viewing p s.log u = stay.viewing p
  waiting : (s.conn u).sock = .none ∨ (s.conn u).sock = .backlog → stay = .out
  slot : ∀ i, s.slot u = some i → (s.server.clients i).currentPainting = stay.painting ∧
    (stay = .gone → (s.server.clients i).sentExit = true)

/-- A visitor to which nothing has happened stays where it is. -/
theorem Fine.frame {ids : ι → CInt} {s s' : Net ι Visitor} {u : ι} {stay : Stay} (h : Fine cw ids s u stay)
    (hproc : s'.proc u = s.proc u) (hconn : s'.conn u = s.conn u)
    (hin : Gallery.inside s'.log u = Gallery.inside s.log u)
    (hview : ∀ p, Gallery.viewing p s'.log u = Gallery.viewing p s.log u)
    (hslot : ∀ i, s'.slot u = some i → s.slot u = some i ∧ s'.server.clients i = s.server.clients i) :
    Fine cw ids s' u stay where
  loc := by rw [hproc, hconn]; exact h.loc
  shutdown := by rw [hproc]; exact h.shutdown
  inside := hin.trans h.inside
  viewing p := (hview p).trans (h.viewing p)
  waiting := by rw [hconn]; exact h.waiting
  slot i hi := by
    obtain ⟨h1, h2⟩ := hslot i hi
    rw [h2]; exact h.slot i h1

variable [Fintype ι]

/-- The invariant of the normal runs. -/
structure Orderly (cw : ClientVersion) (ids : ι → CInt) (s : Net ι Visitor) : Prop where
  legal : s.server.Legal
  wired : s.Wired
  monitors : ∀ i, (s.server.clients i).isMonitor = false
  /-- closed slots are left at no painting -/
  clean : ∀ i, ¬ s.server.IsOpen i → (s.server.clients i).currentPainting = -1
  visitors : ∀ u, ∃ stay, Fine cw ids s u stay
  admits : s.Admits
  counts : ∀ p, s.server.paintingCounts p = num (fun u => viewing p s.log u = true) ∧
    s.server.paintingCounts p ≤ maxPaintingVisitors

theorem Orderly.init (ids : ι → CInt) : Orderly cw ids (.init fun _ => .init) where
  legal := Server.legal_init
  wired := Net.wired_init _
  monitors _ := rfl
  clean _ _ := rfl
  visitors u := ⟨.out, .start rfl rfl rfl rfl, rfl, rfl, fun _ => rfl, fun _ => rfl, fun i hi => by
    have := Net.slot_eq_some hi
    simp [Net.init, Conn.init] at this⟩
  admits := Net.admits_init _
  counts p := by simp [Net.init, Server.init, viewing, num]

/-- **A step of a visitor.** -/
theorem Orderly.client (hcw : cw.Gentle) {ids : ι → CInt} {s : Net ι Visitor} (h : Orderly cw ids s)
    {u : ι} {a : Act} {e : Effect Visitor} {c : Conn} (hn : (s.conn u).NormalAct a)
    (he : Visitor.step cw (ids u) (s.proc u) a = some e) (hc : (s.conn u).call a = some c) :
    Orderly cw ids { s with proc := Function.update s.proc u e.state
                            conn := Function.update s.conn u (c.push e) } := by
  have hsock : (c.push e).sock = (s.conn u).sock ∨ ((s.conn u).sock = .none ∧ (c.push e).sock = .backlog) := by
    simpa [Conn.push] using Conn.call_sock hc
  have hw := h.wired.client (k := e.state) u hsock
  refine ⟨h.legal, hw, h.monitors, h.clean, fun v => ?_, h.admits, h.counts⟩
  obtain ⟨stay, hv⟩ := h.visitors v
  refine ⟨stay, ?_⟩
  by_cases hvu : v = u
  · subst hvu
    obtain ⟨hloc, hsd⟩ := hv.loc.step hcw hv.shutdown hn he hc
    refine ⟨by simpa using hloc, by simpa using hsd, hv.inside, hv.viewing, ?_, ?_⟩
    · intro hwait
      refine hv.waiting ?_
      simp only [Function.update_self] at hwait
      rcases hsock with hsock | ⟨hsock, -⟩
      · rwa [← hsock]
      · exact .inl hsock
    · intro i hi
      have hi' := Net.slot_eq_some hi
      simp only [Function.update_self] at hi'
      rcases hsock with hsock | ⟨-, hsock⟩
      · exact hv.slot i (h.wired.slot_of (by rw [← hsock, hi']))
      · rw [hsock] at hi'; cases hi'
  · refine hv.frame (by simp [hvu]) (by simp [hvu]) rfl (fun _ => rfl) fun i hi => ⟨?_, rfl⟩
    have hi' := Net.slot_eq_some hi
    simp only [ne_eq, hvu, not_false_eq_true, Function.update_of_ne] at hi'
    exact h.wired.slot_of hi'

/-- **A connection is accepted.** -/
theorem Orderly.accept {ids : ι → CInt} {s : Net ι Visitor} (h : Orderly cw ids s) {u : ι} {newSocket : ℤ}
    (hroom : ∃ i, ¬ s.server.IsOpen i) (hb : (s.conn u).sock = .backlog) (hpos : 0 < newSocket)
    (hfresh : ∀ v, (s.conn v).sock ≠ .accepted newSocket) :
    Orderly cw ids { s with server := s.server.accept newSocket
                            conn := Function.update s.conn u { s.conn u with sock := .accepted newSocket } } := by
  have hw := h.wired.accept hb hpos hfresh
  rcases s.server.accept_cases newSocket with ⟨k, -, hk, he⟩ | ⟨hall, -⟩
  swap
  · obtain ⟨i, hi⟩ := hroom; exact absurd (hall i) hi
  refine ⟨h.legal.accept _, hw, fun j => ?_, fun j hj => ?_, fun v => ?_,
    h.admits.of_eq (by simp) rfl, by simpa using h.counts⟩
  · by_cases hjk : j = k
    · subst hjk; simpa [he] using h.monitors j
    · simpa [he, hjk] using h.monitors j
  · by_cases hjk : j = k
    · subst hjk; simp [he, Server.IsOpen] at hj; omega
    · have := h.clean j
      simp [he, hjk, Server.IsOpen] at hj this ⊢
      exact this hj
  obtain ⟨stay, hv⟩ := h.visitors v
  refine ⟨stay, ?_⟩
  by_cases hvu : v = u
  · subst hvu
    obtain rfl := hv.waiting (.inr hb)
    have hkslot := hw.slot_of (u := v) (i := k) (by simp [he])
    refine ⟨by simpa using hv.loc.withSock _, hv.shutdown, hv.inside, hv.viewing, fun _ => rfl, fun i hi => ?_⟩
    obtain rfl := Option.some.inj (hkslot.symm.trans hi)
    have hclean := h.clean k (not_not.2 hk)
    exact ⟨by simpa [he, Stay.painting] using hclean, Stay.noConfusion⟩
  · have hconn : Function.update s.conn u { s.conn u with sock := .accepted newSocket } v = s.conn v := by
      simp [hvu]
    refine hv.frame rfl hconn rfl (fun _ => rfl) fun i hi => ?_
    have hi' := Net.slot_eq_some hi
    dsimp only at hi'
    rw [hconn] at hi'
    by_cases hik : i = k
    · subst hik
      rw [he, Server.setClient_clients_self] at hi'
      exact absurd hi' (hfresh v)
    · have hsame : (s.server.accept newSocket).clients i = s.server.clients i := by simp [he, hik]
      rw [hsame] at hi'
      exact ⟨h.wired.slot_of hi', hsame⟩

/-- A message for one visitor, which moves the counters as it moves the visitor. -/
theorem Orderly.moved {w : Version} (hw : w.Sound) {ids : ι → CInt} {s : Net ι Visitor}
    (h : Orderly cw ids s) {u : ι} {i : Slot} {inp : Input} {x : Reaction} {c : Conn} {stay : Stay}
    (stay' : Stay) (hi : s.slot u = some i) (hh : w.Handles s.server i inp x) (hinp : inp ≠ .monitor)
    (hsock : c.sock = if inp = .closed then .finished else (s.conn u).sock) (hstay : Fine cw ids s u stay)
    (hsends : ∀ m ∈ x.sends, m.1 = (s.server.clients i).fd)
    (hclean : ¬ x.server.IsOpen i → (x.server.clients i).currentPainting = -1)
    (hvis : x.server.currentVisitors + stay.inside.toNat = s.server.currentVisitors + stay'.inside.toNat ∧
      x.server.currentVisitors ≤ maxVisitors)
    (hcounts : ∀ p, x.server.paintingCounts p + (stay.viewing p).toNat =
      s.server.paintingCounts p + (stay'.viewing p).toNat ∧ x.server.paintingCounts p ≤ maxPaintingVisitors)
    (hnew : Fine cw ids ⟨x.server, s.proc, fun v => (Function.update s.conn u c v).deliver x.sends,
      ⟨u, inp, x.response⟩ :: s.log⟩ u stay') :
    Orderly cw ids ⟨x.server, s.proc, fun v => (Function.update s.conn u c v).deliver x.sends,
      ⟨u, inp, x.response⟩ :: s.log⟩ := by
  have hu := Net.slot_eq_some hi
  refine ⟨hh.legal hw.tidy h.legal, h.wired.server _ hi hh hsock, ?_, ?_, ?_, ?_,
    ?_⟩
  · intro j
    exact (hh.isMonitor_eq hinp j).trans (h.monitors j)
  · intro j hj
    by_cases hji : j = i
    · subst hji; exact hclean hj
    · have hsame := hh.clients_of_ne hji
      dsimp only [Server.IsOpen] at hj ⊢
      rw [hsame] at hj ⊢
      exact h.clean j hj
  · intro v
    by_cases hvu : v = u
    · subst hvu; exact ⟨stay', hnew⟩
    · obtain ⟨st, hv⟩ := h.visitors v
      -- the message is for another connection, and for another slot
      have hne : (s.conn v).sock ≠ .accepted (s.server.clients i).fd := fun hv' => hvu (h.wired.inj hv' hu)
      have hconn : (Function.update s.conn u c v).deliver x.sends = s.conn v := by
        rw [Function.update_of_ne hvu]
        exact Conn.deliver_of_ne fun m hm => by rw [hsends m hm]; exact hne
      refine ⟨st, hv.frame rfl hconn (by simp [Gallery.inside, Ne.symm hvu])
        (fun p => by simp [Gallery.viewing, Ne.symm hvu]) fun j hj => ?_⟩
      have hj' := Net.slot_eq_some hj
      dsimp only at hj'
      rw [hconn] at hj'
      have hji : j ≠ i := by
        rintro rfl
        have hfd := hh.fd_eq j
        split_ifs at hfd with hcl
        · have := h.wired.pos hj'; omega
        · exact hne (by rw [hj', hfd])
      have hsame := hh.clients_of_ne hji
      rw [hsame] at hj'
      exact ⟨h.wired.slot_of hj', hsame⟩
  · refine (h.admits.cons_iff (e := ⟨u, inp, x.response⟩) rfl).2 ?_
    have hin : Entry.inside ⟨u, inp, x.response⟩ (Gallery.inside s.log u) = stay'.inside := by
      simpa [Gallery.inside] using hnew.inside
    rw [hin, hstay.inside]
    exact hvis
  · intro p
    have hchange := num_change_bool (Gallery.viewing p s.log)
      (Gallery.viewing p (⟨u, inp, x.response⟩ :: s.log)) u fun v hv => by simp [Gallery.viewing, Ne.symm hv]
    rw [hstay.viewing p, hnew.viewing p] at hchange
    have h1 := (h.counts p).1
    obtain ⟨h2, h3⟩ := hcounts p
    exact ⟨by dsimp only; omega, h3⟩

/-- The server can serve a visitor: the counters are positive where it is counted. -/
theorem Orderly.serves {ids : ι → CInt} {s : Net ι Visitor} (h : Orderly cw ids s) {u : ι} {i : Slot}
    {stay : Stay} (hi : s.slot u = some i) (hu : Fine cw ids s u stay) : s.server.Serves i stay where
  painting := (hu.slot i hi).1
  visitors hin := by
    have := num_pos (P := fun u => Gallery.inside s.log u = true) (hu.inside.trans hin)
    have := h.admits.1
    omega
  visitors_le := by have := h.admits.1; have := h.admits.2; omega
  counts p hp := by
    have := num_pos (P := fun u => Gallery.viewing p s.log u = true) ((hu.viewing p).trans hp)
    have := (h.counts p).1
    omega
  counts_le p := (h.counts p).2

/-- **The command of a visitor is handled.** -/
theorem Orderly.served {w : Version} (hw : w.Sound) {ids : ι → CInt} {s : Net ι Visitor}
    (h : Orderly cw ids s) {u : ι} {i : Slot} {k : Call} {x : Reaction} (hi : s.slot u = some i)
    (hu : Fine cw ids s u k.before) (hpc : (s.proc u).pc = .wait k 0) (hup : (s.conn u).up = [k.message (ids u)])
    (hdown : (s.conn u).down = []) (hcl : (s.conn u).closed = false)
    (hh : w.Handles s.server i (.command (ids u) (some k.action) k.number) x) :
    Orderly cw ids ⟨x.server, s.proc, fun v => (Function.update s.conn u
      { s.conn u with up := dropBytes (k.message (ids u)).length (s.conn u).up } v).deliver x.sends,
      ⟨u, .command (ids u) (some k.action) k.number, x.response⟩ :: s.log⟩ := by
  obtain ⟨stay, ha, hserved⟩ := Version.Handles.served hw (h.serves hi hu) hh
  have hmon : ∀ j, (x.server.clients j).isMonitor = false :=
    fun j => (hh.isMonitor_eq (by simp) j).trans (h.monitors j)
  have hsends := hh.sends_eq hmon ha.ne_nil
  have hfd : (x.server.clients i).fd = (s.server.clients i).fd := by simpa using hh.fd_eq i
  have hsock := Net.slot_eq_some hi
  have hopen := h.wired.slot_isOpen hi
  have hw' := h.wired.server (⟨u, .command (ids u) (some k.action) k.number, x.response⟩ :: s.log)
    (c := { s.conn u with up := dropBytes (k.message (ids u)).length (s.conn u).up }) hi hh (by simp)
  obtain ⟨hent, hentp⟩ := ha.entry u
  refine h.moved hw stay hi hh (by simp) (by simp) hu (by simp [hsends])
    (fun hno => absurd (by unfold Server.IsOpen at *; rwa [hfd]) hno)
    ⟨hserved.visitors, hserved.visitors_le⟩ (fun p => ⟨hserved.counts p, hserved.counts_le p⟩) ?_
  refine ⟨?_, hu.shutdown, ?_, ?_, ?_, ?_⟩
  · simp only [Function.update_self]
    refine .told hpc ha ?_ ?_ hcl
    · simp only [Conn.deliver, hup]; exact dropBytes_length (message_ne_nil _ _) []
    · simp [Conn.deliver, hdown, hsends, hsock]
  · simpa [Gallery.inside, hu.inside] using hent
  · intro p
    simpa [Gallery.viewing, hu.viewing p] using hentp p
  · intro hwait
    simp [Conn.deliver, hsock] at hwait
  · intro j hj
    have hi' := hw'.slot_of (u := u) (i := i) (by simp [Conn.deliver, hsock, hfd])
    obtain rfl := Option.some.inj (hi'.symm.trans hj)
    exact ⟨hserved.painting, hserved.sentExit⟩

/-- **The connection of a visitor that has left is closed.** -/
theorem Orderly.closed {w : Version} (hw : w.Sound) {ids : ι → CInt} {s : Net ι Visitor}
    (h : Orderly cw ids s) {u : ι} {i : Slot} {x : Reaction} (hi : s.slot u = some i)
    (hu : Fine cw ids s u .gone) (hpc : (s.proc u).pc = .closed) (hcl : (s.conn u).closed = true)
    (hh : w.Handles s.server i .closed x) :
    Orderly cw ids ⟨x.server, s.proc, fun v => (Function.update s.conn u
      { s.conn u with up := [], sock := .finished } v).deliver x.sends, ⟨u, .closed, x.response⟩ :: s.log⟩ := by
  obtain ⟨hcp, hse⟩ := hu.slot i hi
  have hcp : (s.server.clients i).currentPainting = -1 := hcp
  have hcounted := hw.counted _ (hse rfl)
  have hmon : ∀ j, (x.server.clients j).isMonitor = false :=
    fun j => (hh.isMonitor_eq (by simp) j).trans (h.monitors j)
  have hserves := h.serves hi hu
  cases hh with
  | closed hs =>
    refine h.moved hw .gone hi (.closed hs) (by simp) (by simp) hu ?_ (?_) ⟨?_, ?_⟩ (fun p => ⟨?_, ?_⟩) ?_
    · simp [Version.broadcastStatus_eq_nil hmon]
    · intro _
      simp [hs, hcp]
    · simp [hs, hcounted]
    · simpa [hs, hcounted] using hserves.visitors_le
    · simp [hs, hcp]
    · simpa [hs, hcp] using hserves.counts_le p
    · refine ⟨?_, hu.shutdown, ?_, ?_, ?_, ?_⟩
      · exact .gone hpc (.inl (by simp [Conn.deliver])) (by simp [Conn.deliver, hcl])
      · simp [Gallery.inside, Entry.inside, Stay.inside]
      · intro p
        simpa [Gallery.viewing, Entry.viewing] using hu.viewing p
      · intro hwait
        simp [Conn.deliver] at hwait
      · intro j hj
        have hj' := Net.slot_eq_some hj
        simp [Conn.deliver] at hj'

/-- The server handles no `EXIT` of a visitor that is not inside. -/
def Net.FirstExit (s : Net ι Visitor) : Label ι → Prop
  | .server u r => ∀ id n, decode r = .ok (.command id (some .exit) n) → Gallery.inside s.log u = true
  | _ => True

/-- **A step of a normal run.** -/
theorem Orderly.step {w : Version} (hw : w.Sound) (hcw : cw.Gentle) {ids : ι → CInt} {s s' : Net ι Visitor}
    {a : Label ι} (h : Orderly cw ids s) (hn : s.Normal a) (hfirst : s.FirstExit a)
    (hs : Net.step w (fun u => Visitor.step cw (ids u)) s a = some s') : Orderly cw ids s' := by
  obtain ⟨u, act, e, c, rfl, he, hc, rfl⟩ | ⟨u, newSocket, rfl, hb, hpos, hfresh, rfl⟩ |
    ⟨u, r, i, c, inp, x, rfl, hi, hc, hd, hh, rfl⟩ := Net.step_cases h.legal hs
  · exact h.client hcw hn he hc
  · exact h.accept hn hb hpos hfresh
  obtain ⟨stay, hu⟩ := h.visitors u
  cases r with
  | data buf =>
    have hn : (s.conn u).up.head? = some buf := hn
    obtain ⟨-, hc⟩ := Option.ite_none_right_eq_some.1 hc
    obtain rfl := Option.some.inj hc
    cases hu.loc with
    | start _ hup | ready _ hup | told _ _ hup => rw [hup] at hn; cases hn
    | asked hpc hk hup hdown hcl =>
      subst hk
      rw [hup] at hn
      obtain rfl := Option.some.inj hn
      obtain rfl := Except.ok.inj ((decode_message (ids u) _).symm.trans hd)
      exact h.served hw hi hu hpc hup hdown hcl hh
    | gone hpc hup hcl =>
      rcases hup with hup | ⟨-, hup⟩
      · rw [hup] at hn; cases hn
      · -- the `EXIT` of `cleanup`
        rw [hup] at hn
        obtain rfl := Option.some.inj hn
        have := hu.inside.symm.trans (hfirst _ _ (decode_message (ids u) .exit))
        cases this
  | closed =>
    obtain ⟨hclosed, hc⟩ := Option.ite_none_right_eq_some.1 hc
    obtain rfl := Option.some.inj hc
    obtain rfl := Except.ok.inj hd
    cases hu.loc with
    | start _ _ _ hcl | ready _ _ _ hcl | asked _ _ _ _ hcl | told _ _ _ _ hcl =>
      rw [hcl] at hclosed; cases hclosed
    | gone hpc _ hcl => exact h.closed hw hi hu hpc hcl hh

/-- **No second `EXIT`** when the program ends without `cleanup`. -/
theorem Orderly.firstExit (hat : cw.atExit = false) {ids : ι → CInt} {s : Net ι Visitor} {a : Label ι}
    (h : Orderly cw ids s) (hn : s.Normal a) : s.FirstExit a := by
  cases a with
  | client | accept => trivial
  | server u r =>
    intro id n hd
    cases r with
    | closed => cases hd
    | data buf =>
      have hn : (s.conn u).up.head? = some buf := hn
      obtain ⟨stay, hu⟩ := h.visitors u
      cases hu.loc with
      | start _ hup | ready _ hup | told _ _ hup => rw [hup] at hn; cases hn
      | @asked k _ _ hk hup =>
        rw [hup] at hn
        obtain rfl := Option.some.inj hn
        have := Except.ok.inj ((decode_message (ids u) k).symm.trans hd)
        have hex : k = .exit := by
          cases k <;> simp [Call.action] at this ⊢
        subst hex hk
        exact hu.inside
      | gone _ hup =>
        rcases hup with hup | ⟨hat', -⟩
        · rw [hup] at hn; cases hn
        · rw [hat] at hat'; cases hat'

end Gallery
