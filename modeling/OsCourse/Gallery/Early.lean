/-
  The first gallery (idz os 3/4-5), whose server takes a visitor off `current_visitors`
  at its `EXIT` and again at its disconnect: what the counters are in normal runs.
-/
import OsCourse.Gallery.Visits

namespace Gallery.V4

open Transition Counting

/-! ## The server -/

def invalidFormat : Text := "ERROR Invalid format".toList

def invalidPainting : Text := "ERROR Invalid painting".toList

def notViewing : Text := "ERROR Not viewing".toList

def unknownCommand : Text := "ERROR Unknown command".toList

/-- The client of slot `i` is taken off `painting_counts`. -/
def releasePainting (s : Server) (i : Slot) : Except Fault Server :=
  if (s.clients i).currentPainting = -1 then .ok s
  else match painting? (s.clients i).currentPainting with
    | some p => .ok { s with paintingCounts := Function.update s.paintingCounts p (s.paintingCounts p - 1) }
    | none => .error (.index (s.clients i).currentPainting)

/-- The end of the handler: `response` is sent to the client. -/
def reply (s : Server) (i : Slot) (response : Text) : Reaction :=
  { server := s, sends := [((s.clients i).fd, response)], response := response }

/-- The branches of `handle_client_message` on `action`, after `visitor_id` has been
    stored. -/
def execute (s : Server) (i : Slot) (id n : ℤ) : Option Action → Except Fault Reaction
  | some .enter => .ok <|
    if s.currentVisitors < maxVisitors then
      reply { s with currentVisitors := s.currentVisitors + 1 } i (enterOk id)
    else reply s i (enterWait id)
  | some .view => .ok <|
    match painting? n with
    | some p =>
      if s.paintingCounts p < maxPaintingVisitors then
        let s := { s with paintingCounts := Function.update s.paintingCounts p (s.paintingCounts p + 1) }
        reply (s.setClient i { s.clients i with currentPainting := n }) i (viewOk id n)
      else reply s i (viewWait id n)
    | none => reply s i invalidPainting
  | some .leavePainting =>
    if (s.clients i).currentPainting = -1 then .ok (reply s i notViewing)
    else (releasePainting s i).map fun s =>
      reply (s.setClient i { s.clients i with currentPainting := -1 }) i (leftPainting id)
  | some .exit => .ok (reply { s with currentVisitors := s.currentVisitors - 1 } i (exitOk id))
  | none => .ok (reply s i unknownCommand)

/-- What the handler does with its input from slot `i`. -/
def react (s : Server) (i : Slot) : Input → Except Fault Reaction
  | .closed => (releasePainting s i).map fun s =>
    let s := if (s.clients i).visitorId ≠ -1 then { s with currentVisitors := s.currentVisitors - 1 } else s
    { server := s.setClient i { s.clients i with fd := -1 }, sends := [], response := [] }
  | .monitor | .ignored => .ok (reply s i invalidFormat)
  | .command id action n => execute (s.setClient i { s.clients i with visitorId := id }) i id n action

def handleClientMessage (s : Server) (i : Slot) (r : Read) : Except Fault Reaction :=
  (decode r).bind (react s i)

/-! ## The visitors and the network -/

/-- The program of the visitor `id`.  It is that of idz os 3/9, but it sends its message
    again after every timeout, and a signal just ends it. -/
def client (id : ℤ) : Program Visitor := fun v a =>
  match a, v.pc with
  | .timeout, .wait c attempts => some (.goOn { v with pc := .send c attempts })
  | .signal, .closed => none
  | .signal, _ => some v.leave
  | a, _ => Visitor.step V9.client id v a

section Network
variable {ι : Type} [DecidableEq ι]

/-- A call of the handler for `u`, on slot `i`. -/
def handle (s : Net ι Visitor) (u : ι) (i : Slot) (c : Conn) (r : Read) : Option (Net ι Visitor) :=
  (handleClientMessage s.server i r).toOption.bind fun x => (decode r).toOption.map fun inp =>
    { server := x.server
      proc := s.proc
      conn := fun v => (Function.update s.conn u c v).deliver x.sends
      log := ⟨u, inp, x.response⟩ :: s.log }

variable [Fintype ι]

def step (ids : ι → ℤ) (s : Net ι Visitor) : Label ι → Option (Net ι Visitor)
  | .client u a => (client (ids u) (s.proc u) a).bind fun e => ((s.conn u).call a).map fun c =>
    { s with proc := Function.update s.proc u e.state, conn := Function.update s.conn u (c.push e) }
  | .accept u newSocket =>
    if (s.conn u).sock = .backlog ∧ 0 < newSocket ∧ ∀ v, (s.conn v).sock ≠ .accepted newSocket then
      some { s with server := s.server.accept newSocket
                    conn := Function.update s.conn u { s.conn u with sock := .accepted newSocket } }
    else none
  | .server u r => (s.slot u).bind fun i => ((s.conn u).read r).bind fun c => handle s u i c r

/-- The normal runs of the visitors with the given numbers. -/
def normalVisitors (ids : ι → CInt) : System (Net ι Visitor) (Label ι) :=
  (System.ofFn (.init fun _ => .init) (step fun u => (ids u : ℤ))).restrict Net.Normal

end Network

/-! ## One message -/

section Message
variable {s : Server} {i : Slot} {id : ℤ} {k : Call} {x : Reaction} {stay stay' : Stay} {p : Painting}

/-- The reaction to the message of a visitor that was at `stay` and is at `stay'`
    afterwards. -/
structure Moves (s : Server) (i : Slot) (x : Reaction) (stay stay' : Stay) : Prop where
  clients_of_ne : ∀ j, j ≠ i → x.server.clients j = s.clients j
  painting : (x.server.clients i).currentPainting = stay'.painting
  counts : ∀ p, x.server.paintingCounts p + (stay.viewing p).toNat = s.paintingCounts p + (stay'.viewing p).toNat
  counts_le : ∀ p, x.server.paintingCounts p ≤ maxPaintingVisitors
  visitors_le : x.server.currentVisitors ≤ maxVisitors

/-- The reply to the call `k`, after which the visitor is at `stay'`. -/
structure Answers (s : Server) (i : Slot) (id : ℤ) (k : Call) (x : Reaction) (stay' : Stay) : Prop
    extends Moves s i x k.before stay' where
  answer : Answer id k x.response stay'
  sends : x.sends = [((s.clients i).fd, x.response)]
  fd : (x.server.clients i).fd = (s.clients i).fd
  visitorId : (x.server.clients i).visitorId = id
  visitors : x.server.currentVisitors + k.before.inside.toNat = s.currentVisitors + stay'.inside.toNat

/-- What the server knows about a visitor at `stay` on slot `i`. -/
structure Knows (s : Server) (i : Slot) (stay : Stay) : Prop where
  painting : (s.clients i).currentPainting = stay.painting
  visitors_le : s.currentVisitors ≤ maxVisitors
  counts_le : ∀ p, s.paintingCounts p ≤ maxPaintingVisitors

theorem answers_enter (h : Knows s i .out) (hk : k = .enter ∨ k = .reenter) :
    ∃ x stay', react s i (.command id (some .enter) (-1)) = .ok x ∧ Answers s i id k x stay' := by
  have hbefore : k.before = .out := by
    rcases hk with rfl | rfl <;> rfl
  have hp := h.painting
  by_cases hlt : s.currentVisitors < maxVisitors
  · refine ⟨_, .hall, by rw [react, execute, if_pos (by simpa using hlt)],
      ⟨⟨?_, ?_, ?_, h.counts_le, ?_⟩, ?_, ?_, ?_, ?_, ?_⟩⟩
    · intro j hj
      simp [reply, hj]
    · simpa [reply, Stay.painting] using hp
    · intro p
      simp [reply, hbefore, Stay.viewing]
    · simp [reply]; omega
    · rcases hk with rfl | rfl
      · exact .enterOk
      · exact .reenterOk
    all_goals simp [reply, hbefore, Stay.inside]
  · refine ⟨_, .out, by rw [react, execute, if_neg (by simpa using hlt)],
      ⟨⟨?_, ?_, ?_, h.counts_le, h.visitors_le⟩, ?_, ?_, ?_, ?_, ?_⟩⟩
    · intro j hj
      simp [reply, hj]
    · simpa [reply] using hp
    · intro p
      simp [reply, hbefore]
    · rcases hk with rfl | rfl
      · exact .enterWait
      · exact .reenterWait
    all_goals simp [reply, hbefore]

theorem react_viewOk (h : s.paintingCounts p < maxPaintingVisitors) :
    react s i (.command id (some .view) p.val) = .ok (reply
      ⟨Function.update s.clients i { s.clients i with visitorId := id, currentPainting := p.val },
        s.currentVisitors, Function.update s.paintingCounts p (s.paintingCounts p + 1)⟩ i (viewOk id p.val)) := by
  have hn : painting? (p.val : ℤ) = some p := painting?_eq_some.2 rfl
  simp [react, execute, hn, h, Server.setClient]

theorem react_viewWait (h : ¬ s.paintingCounts p < maxPaintingVisitors) :
    react s i (.command id (some .view) p.val) =
      .ok (reply (s.setClient i { s.clients i with visitorId := id }) i (viewWait id p.val)) := by
  have hn : painting? (p.val : ℤ) = some p := painting?_eq_some.2 rfl
  simp [react, execute, hn, h]

theorem answers_view (h : Knows s i .hall) :
    ∃ x stay', react s i (.command id (some .view) p.val) = .ok x ∧ Answers s i id (.view p) x stay' := by
  have hp := h.painting
  by_cases hlt : s.paintingCounts p < maxPaintingVisitors
  · refine ⟨_, .at p, react_viewOk hlt, ⟨⟨?_, ?_, ?_, ?_, h.visitors_le⟩, .viewOk p, ?_, ?_, ?_, ?_⟩⟩
    · intro j hj
      simp [reply, hj]
    · simp [reply, Stay.painting]
    · intro q
      by_cases hq : q = p
      · subst hq; simp [reply, Call.before, Stay.viewing]
      · simp [reply, Call.before, Stay.viewing, hq, Ne.symm hq]
    · intro q
      by_cases hq : q = p
      · subst hq; simp [reply]; omega
      · simpa [reply, hq] using h.counts_le q
    all_goals simp [reply, Call.before, Stay.inside]
  · refine ⟨_, .hall, react_viewWait hlt,
      ⟨⟨?_, ?_, ?_, h.counts_le, h.visitors_le⟩, .viewWait p, ?_, ?_, ?_, ?_⟩⟩
    · intro j hj
      simp [reply, hj]
    · simpa [reply] using hp
    · intro q
      simp [reply, Call.before]
    all_goals simp [reply, Call.before]

/-- A painting is released. -/
theorem releasePainting_at (h : (s.clients i).currentPainting = p.val) : releasePainting s i =
    .ok { s with paintingCounts := Function.update s.paintingCounts p (s.paintingCounts p - 1) } := by
  rw [releasePainting, if_neg (by omega), painting?_eq_some.2 h]

theorem answers_leavePainting (h : Knows s i (.at p)) :
    ∃ x stay', react s i (.command id (some .leavePainting) p.val) = .ok x ∧
      Answers s i id (.leavePainting p) x stay' := by
  have hp : (s.clients i).currentPainting = p.val := h.painting
  have hp' : ((s.setClient i { s.clients i with visitorId := id }).clients i).currentPainting = p.val := by
    simpa using hp
  refine ⟨_, .hall, by rw [react, execute, if_neg (by omega), releasePainting_at hp']; rfl,
    ⟨⟨?_, ?_, ?_, ?_, h.visitors_le⟩, .left p, ?_, ?_, ?_, ?_⟩⟩
  · intro j hj
    simp [reply, Server.setClient, hj]
  · simp [reply, Server.setClient, Stay.painting]
  · intro q
    by_cases hq : q = p
    · subst hq; simp [reply, Call.before, Stay.viewing]
    · simp [reply, Call.before, Stay.viewing, hq, Ne.symm hq]
  · intro q
    have := h.counts_le q
    by_cases hq : q = p
    · subst hq; simp [reply]; omega
    · simpa [reply, hq] using this
  all_goals simp [reply, Server.setClient, Call.before, Stay.inside]

theorem answers_exit (h : Knows s i .hall) :
    ∃ x stay', react s i (.command id (some .exit) (-1)) = .ok x ∧ Answers s i id .exit x stay' := by
  have hp := h.painting
  have := h.visitors_le
  refine ⟨_, .gone, rfl, ⟨⟨?_, ?_, ?_, h.counts_le, ?_⟩, .exit, ?_, ?_, ?_, ?_⟩⟩
  · intro j hj
    simp [reply, hj]
  · simpa [reply, Stay.painting] using hp
  · intro p
    simp [reply, Call.before, Stay.viewing]
  · simp [reply]; omega
  all_goals simp [reply, Call.before, Stay.inside]

/-- **A call that is in its place is answered.** -/
theorem answers (id : ℤ) (h : Knows s i k.before) :
    ∃ x stay', react s i (.command id (some k.action) k.number) = .ok x ∧ Answers s i id k x stay' := by
  cases k with
  | enter => exact answers_enter h (.inl rfl)
  | reenter => exact answers_enter h (.inr rfl)
  | view p => exact answers_view h
  | leavePainting p => exact answers_leavePainting h
  | exit => exact answers_exit h

/-- **The disconnect of a visitor that has left** takes it off `current_visitors` once
    more. -/
theorem react_closed (h : Knows s i .gone) (hid : (s.clients i).visitorId ≠ -1) :
    ∃ x, react s i .closed = .ok x ∧ x.sends = [] ∧ (x.server.clients i).fd = -1 ∧
      x.server.currentVisitors = s.currentVisitors - 1 ∧ Moves s i x .gone .gone := by
  have hp : (s.clients i).currentPainting = -1 := h.painting
  have := h.visitors_le
  refine ⟨_, by rw [react, releasePainting, if_pos hp, Except.map, if_pos hid], rfl, by simp, by simp,
    ?_, ?_, ?_, ?_, ?_⟩
  · intro j hj
    simp [hj]
  · simpa [Stay.painting] using hp
  · intro p
    simp
  · exact h.counts_le
  · simp; omega

end Message

/-! ## The network -/

variable {ι : Type}

/-- The visitor `u` is at `stay`: so are its program and its connection, what it was
    answered, and its slot. -/
structure Fine [DecidableEq ι] (ids : ι → CInt) (s : Net ι Visitor) (u : ι) (stay : Stay) : Prop where
  loc : Local V9.client (ids u) (s.proc u) (s.conn u) stay
  shutdown : (s.proc u).shutdown = false
  inside : inside s.log u = stay.inside
  viewing : ∀ p, viewing p s.log u = stay.viewing p
  waiting : (s.conn u).sock = .none ∨ (s.conn u).sock = .backlog → stay = .out
  painting : ∀ i, s.slot u = some i → (s.server.clients i).currentPainting = stay.painting
  visitorId : ∀ i, s.slot u = some i → stay ≠ .out → (s.server.clients i).visitorId ≠ -1

/-- The server has handled the disconnect of `u`. -/
def Finished (s : Net ι Visitor) (u : ι) : Prop := (s.conn u).sock = .finished

instance (s : Net ι Visitor) : DecidablePred (Finished s) := fun _ => inferInstanceAs (Decidable (_ = _))

/-- Slots and connections stay in order when a message of the connection `u` has been
    handled. -/
theorem wired_handled [DecidableEq ι] {s : Net ι Visitor} (h : s.Wired) (log : List (Entry ι)) {u : ι} {i : Slot}
    {server : Server} {c : Conn} {sends : List (ℤ × Text)} {ends : Prop} [Decidable ends] (hi : s.slot u = some i)
    (hother : ∀ j, j ≠ i → server.clients j = s.server.clients j)
    (hfd : (server.clients i).fd = if ends then -1 else (s.server.clients i).fd)
    (hc : c.sock = if ends then .finished else (s.conn u).sock) :
    Net.Wired { server := server, proc := s.proc, log := log
                conn := fun v => (Function.update s.conn u c v).deliver sends } := by
  have hu := Net.slot_eq_some hi
  have key : ∀ v fd, (Function.update s.conn u c v).sock = .accepted fd →
      (s.conn v).sock = .accepted fd ∧ (v = u → ¬ ends) := by
    intro v fd hv
    by_cases hvu : v = u
    · subst hvu
      rw [Function.update_self, hc] at hv
      split_ifs at hv with he
      exact ⟨hv, fun _ => he⟩
    · rw [Function.update_of_ne hvu] at hv
      exact ⟨hv, fun he => absurd he hvu⟩
  have hslot : ∀ j, server.IsOpen j → (server.clients j).fd = (s.server.clients j).fd ∧ (j = i → ¬ ends) := by
    intro j hj
    by_cases hji : j = i
    · subst hji
      rw [Server.IsOpen, hfd] at hj
      split_ifs at hj with he
      · exact absurd rfl hj
      · exact ⟨by rw [hfd, if_neg he], fun _ => he⟩
    · exact ⟨by rw [hother j hji], fun he => absurd he hji⟩
  refine ⟨fun hv => h.pos (key _ _ hv).1, fun hv hv' => h.inj (key _ _ hv).1 (key _ _ hv').1, ?_, ?_⟩
  · intro j k hjk hj
    have hj' := (hslot j hj).1
    have hk' := (hslot k (by dsimp only at hjk; unfold Server.IsOpen at *; rwa [← hjk])).1
    dsimp only at hjk
    exact h.slot_inj (by rw [← hj', ← hk', hjk]) (by unfold Server.IsOpen at *; rwa [← hj'])
  · intro j hj
    obtain ⟨hj', hends⟩ := hslot j hj
    obtain ⟨v, hv⟩ := h.owner (i := j) (by unfold Server.IsOpen at *; rwa [← hj'])
    refine ⟨v, ?_⟩
    dsimp only
    rw [hj']
    by_cases hvu : v = u
    · subst hvu
      have hopen : s.server.IsOpen j := by
        unfold Server.IsOpen at *
        rwa [← hj']
      have hji : j = i := h.slot_inj (Sock.accepted.inj (hv.symm.trans hu)) hopen
      simpa [Conn.deliver, hc, hends hji] using hv
    · simpa [Conn.deliver, hvu] using hv

variable [DecidableEq ι]

/-- A visitor to which nothing has happened stays where it is. -/
theorem Fine.frame {ids : ι → CInt} {s s' : Net ι Visitor} {u : ι} {stay : Stay} (h : Fine ids s u stay)
    (hproc : s'.proc u = s.proc u) (hconn : s'.conn u = s.conn u)
    (hin : Gallery.inside s'.log u = Gallery.inside s.log u)
    (hview : ∀ p, Gallery.viewing p s'.log u = Gallery.viewing p s.log u)
    (hslot : ∀ i, s'.slot u = some i → s.slot u = some i ∧ s'.server.clients i = s.server.clients i) :
    Fine ids s' u stay where
  loc := by rw [hproc, hconn]; exact h.loc
  shutdown := by rw [hproc]; exact h.shutdown
  inside := hin.trans h.inside
  viewing p := (hview p).trans (h.viewing p)
  waiting := by rw [hconn]; exact h.waiting
  painting i hi := by
    obtain ⟨h1, h2⟩ := hslot i hi
    rw [h2]; exact h.painting i h1
  visitorId i hi := by
    obtain ⟨h1, h2⟩ := hslot i hi
    rw [h2]; exact h.visitorId i h1

variable [Fintype ι]

/-- The invariant of the normal runs. -/
structure Orderly (ids : ι → CInt) (s : Net ι Visitor) : Prop where
  wired : s.Wired
  /-- closed slots are left at no painting -/
  clean : ∀ i, ¬ s.server.IsOpen i → (s.server.clients i).currentPainting = -1
  visitors : ∀ u, ∃ stay, Fine ids s u stay
  count : s.server.currentVisitors + num (Finished s) = num (fun u => inside s.log u = true)
  visitors_le : s.server.currentVisitors ≤ maxVisitors
  counts : ∀ p, s.server.paintingCounts p = num (fun u => viewing p s.log u = true)
  counts_le : ∀ p, s.server.paintingCounts p ≤ maxPaintingVisitors

theorem Orderly.init (ids : ι → CInt) : Orderly ids (.init fun _ => .init) where
  wired := Net.wired_init _
  clean _ _ := rfl
  visitors u := by
    refine ⟨.out, .start rfl rfl rfl rfl, rfl, rfl, fun _ => rfl, fun _ => rfl, fun i hi => ?_,
      fun _ _ hne => absurd rfl hne⟩
    cases hi
  count := by
    have hfin : num (Finished (.init fun _ : ι => .init)) = 0 := by
      rw [num, Finset.card_eq_zero, Finset.filter_eq_empty_iff]
      intro u _ h
      cases h
    rw [hfin]
    simp [Net.init, Server.init, inside, num]
  visitors_le := Int.le.intro 25 rfl
  counts p := by simp [Net.init, Server.init, viewing, num]
  counts_le p := by simp [Net.init, Server.init]

variable {ids : ι → CInt} {s : Net ι Visitor} {u : ι} {i : Slot}

/-- In a normal run a visitor runs the program of idz os 3/9. -/
theorem client_eq {id : ℤ} {v : Visitor} {c : Conn} {a : Act} (hn : c.NormalAct a) :
    client id v a = Visitor.step V9.client id v a := by
  unfold client
  split
  · exact hn.elim
  · exact hn.elim
  · exact hn.elim
  · rfl

/-- **A step of a visitor.** -/
theorem Orderly.client (h : Orderly ids s) {a : Act} {e : Effect Visitor} {c : Conn} (hn : (s.conn u).NormalAct a)
    (he : client (ids u) (s.proc u) a = some e) (hc : (s.conn u).call a = some c) :
    Orderly ids { s with proc := Function.update s.proc u e.state
                         conn := Function.update s.conn u (c.push e) } := by
  have hsock : (c.push e).sock = (s.conn u).sock ∨ ((s.conn u).sock = .none ∧ (c.push e).sock = .backlog) := by
    simpa [Conn.push] using Conn.call_sock hc
  have hw := h.wired.client (k := e.state) u hsock
  rw [client_eq hn] at he
  refine ⟨hw, h.clean, fun v => ?_, ?_, h.visitors_le, h.counts, h.counts_le⟩
  · obtain ⟨stay, hv⟩ := h.visitors v
    refine ⟨stay, ?_⟩
    by_cases hvu : v = u
    · subst hvu
      obtain ⟨hloc, hsd⟩ := hv.loc.step V9.gentle hv.shutdown hn he hc
      have hslot : ∀ i, Net.slot { s with proc := Function.update s.proc v e.state
                                          conn := Function.update s.conn v (c.push e) } v = some i →
          s.slot v = some i := by
        intro i hi
        have hi' := Net.slot_eq_some hi
        simp only [Function.update_self] at hi'
        rcases hsock with hsock | ⟨-, hsock⟩
        · exact h.wired.slot_of (by rw [← hsock, hi'])
        · rw [hsock] at hi'; cases hi'
      refine ⟨by simpa using hloc, by simpa using hsd, hv.inside, hv.viewing, ?_,
        fun i hi => hv.painting i (hslot i hi), fun i hi => hv.visitorId i (hslot i hi)⟩
      intro hwait
      refine hv.waiting ?_
      simp only [Function.update_self] at hwait
      rcases hsock with hsock | ⟨hsock, -⟩
      · rwa [← hsock]
      · exact .inl hsock
    · refine hv.frame (by simp [hvu]) (by simp [hvu]) rfl (fun _ => rfl) fun i hi => ⟨?_, rfl⟩
      have hi' := Net.slot_eq_some hi
      simp only [ne_eq, hvu, not_false_eq_true, Function.update_of_ne] at hi'
      exact h.wired.slot_of hi'
  · refine Eq.trans ?_ h.count
    congr 2
    refine num_congr fun v => ?_
    by_cases hvu : v = u
    · subst hvu
      rcases hsock with hsock | ⟨hnone, hsock⟩
      · simp [Finished, hsock]
      · simp [Finished, hsock, hnone]
    · simp [Finished, hvu]

/-- **A connection is accepted.** -/
theorem Orderly.accept (h : Orderly ids s) {newSocket : ℤ} (hroom : ∃ i, ¬ s.server.IsOpen i)
    (hb : (s.conn u).sock = .backlog) (hpos : 0 < newSocket) (hfresh : ∀ v, (s.conn v).sock ≠ .accepted newSocket) :
    Orderly ids { s with server := s.server.accept newSocket
                         conn := Function.update s.conn u { s.conn u with sock := .accepted newSocket } } := by
  have hw := h.wired.accept hb hpos hfresh
  rcases s.server.accept_cases newSocket with ⟨k, -, hk, he⟩ | ⟨hall, -⟩
  swap
  · obtain ⟨i, hi⟩ := hroom; exact absurd (hall i) hi
  refine ⟨hw, fun j hj => ?_, fun v => ?_, ?_, by simpa using h.visitors_le, by simpa using h.counts,
    by simpa using h.counts_le⟩
  · by_cases hjk : j = k
    · subst hjk; simp [he, Server.IsOpen] at hj; omega
    · have := h.clean j
      simp [he, hjk, Server.IsOpen] at hj this ⊢
      exact this hj
  · obtain ⟨stay, hv⟩ := h.visitors v
    refine ⟨stay, ?_⟩
    by_cases hvu : v = u
    · subst hvu
      obtain rfl := hv.waiting (.inr hb)
      have hkslot := hw.slot_of (u := v) (i := k) (by simp [he])
      refine ⟨by simpa using hv.loc.withSock _, hv.shutdown, hv.inside, hv.viewing, fun _ => rfl, fun i hi => ?_,
        fun _ _ hne => absurd rfl hne⟩
      obtain rfl := Option.some.inj (hkslot.symm.trans hi)
      have hclean := h.clean k (not_not.2 hk)
      simpa [he, Stay.painting] using hclean
    · have hconn : Function.update s.conn u { s.conn u with sock := .accepted newSocket } v = s.conn v := by
        simp [hvu]
      refine hv.frame rfl hconn rfl (fun _ => rfl) fun i hi => ?_
      have hi' := Net.slot_eq_some hi
      dsimp only at hi'
      rw [hconn] at hi'
      by_cases hik : i = k
      · subst hik
        rw [he, Server.setClient_clients_self] at hi'
        exact absurd hi' (hfresh v)
      · have hsame : (s.server.accept newSocket).clients i = s.server.clients i := by simp [he, hik]
        rw [hsame] at hi'
        exact ⟨h.wired.slot_of hi', hsame⟩
  · have hfin : num (Finished { s with server := s.server.accept newSocket
                                       conn := Function.update s.conn u
                                         { s.conn u with sock := .accepted newSocket } }) = num (Finished s) := by
      refine num_congr fun v => ?_
      by_cases hvu : v = u
      · subst hvu; simp [Finished, hb]
      · simp [Finished, hvu]
    simpa [hfin] using h.count

/-- The server knows where the visitors are. -/
theorem Orderly.knows (h : Orderly ids s) {stay : Stay} (hi : s.slot u = some i) (hu : Fine ids s u stay) :
    Knows s.server i stay where
  painting := hu.painting i hi
  visitors_le := h.visitors_le
  counts_le := h.counts_le

/-- **A message has been handled**, which moves the counters as it moves the visitor; the
    end of a connection is counted besides. -/
theorem Orderly.handled (h : Orderly ids s) {inp : Input} {x : Reaction} {c : Conn} {stay : Stay} (stay' : Stay)
    (hi : s.slot u = some i) (hu : Fine ids s u stay) (hm : Moves s.server i x stay stay')
    (hfd : (x.server.clients i).fd = if inp = .closed then -1 else (s.server.clients i).fd)
    (hsock : c.sock = if inp = .closed then .finished else (s.conn u).sock)
    (hsends : ∀ m ∈ x.sends, m.1 = (s.server.clients i).fd)
    (hclean : inp = .closed → stay' = .gone)
    (hvis : x.server.currentVisitors + stay.inside.toNat + (if inp = .closed then 1 else 0) =
      s.server.currentVisitors + stay'.inside.toNat)
    (hnew : Fine ids ⟨x.server, s.proc, fun v => (Function.update s.conn u c v).deliver x.sends,
      ⟨u, inp, x.response⟩ :: s.log⟩ u stay') :
    Orderly ids ⟨x.server, s.proc, fun v => (Function.update s.conn u c v).deliver x.sends,
      ⟨u, inp, x.response⟩ :: s.log⟩ := by
  have hu' := Net.slot_eq_some hi
  have hopen := h.wired.slot_isOpen hi
  refine ⟨wired_handled h.wired _ hi hm.clients_of_ne hfd hsock, ?_, ?_, ?_, hm.visitors_le, ?_, hm.counts_le⟩
  · intro j hj
    by_cases hji : j = i
    · subst hji
      dsimp only [Server.IsOpen] at hj hopen
      rw [hfd] at hj
      split_ifs at hj with hcl
      · have := hm.painting
        rwa [hclean hcl] at this
      · exact absurd hopen hj
    · have hsame := hm.clients_of_ne j hji
      dsimp only [Server.IsOpen] at hj ⊢
      rw [hsame] at hj ⊢
      exact h.clean j hj
  · intro v
    by_cases hvu : v = u
    · subst hvu; exact ⟨stay', hnew⟩
    · obtain ⟨st, hv⟩ := h.visitors v
      -- the message is for another connection, and for another slot
      have hne : (s.conn v).sock ≠ .accepted (s.server.clients i).fd := fun hv' => hvu (h.wired.inj hv' hu')
      have hconn : (Function.update s.conn u c v).deliver x.sends = s.conn v := by
        rw [Function.update_of_ne hvu]
        exact Conn.deliver_of_ne fun m hm => by rw [hsends m hm]; exact hne
      refine ⟨st, hv.frame rfl hconn (by simp [Gallery.inside, Ne.symm hvu])
        (fun p => by simp [Gallery.viewing, Ne.symm hvu]) fun j hj => ?_⟩
      have hj' := Net.slot_eq_some hj
      dsimp only at hj'
      rw [hconn] at hj'
      have hji : j ≠ i := by
        rintro rfl
        split_ifs at hfd with hcl
        · have := h.wired.pos hj'; omega
        · exact hne (by rw [hj', hfd])
      have hsame := hm.clients_of_ne j hji
      rw [hsame] at hj'
      exact ⟨h.wired.slot_of hj', hsame⟩
  · have hin := num_change_bool (Gallery.inside s.log) (Gallery.inside (⟨u, inp, x.response⟩ :: s.log)) u
      fun v hv => by simp [Gallery.inside, Ne.symm hv]
    have hfin := num_change (Finished s) (Finished ⟨x.server, s.proc,
      fun v => (Function.update s.conn u c v).deliver x.sends, ⟨u, inp, x.response⟩ :: s.log⟩) u
      fun v hv => by simp [Finished, Conn.deliver, hv]
    have hold : ¬ Finished s u := by
      simp [Finished, hu']
    have hend : Finished ⟨x.server, s.proc, fun v => (Function.update s.conn u c v).deliver x.sends,
        ⟨u, inp, x.response⟩ :: s.log⟩ u ↔ inp = .closed := by
      simp [Finished, Conn.deliver, hsock, hu']
    rw [hu.inside, hnew.inside] at hin
    simp only [hold, hend, if_false] at hfin
    have hcount := h.count
    split_ifs at hfin hvis
    · dsimp only; omega
    · dsimp only; omega
  · intro p
    have hchange := num_change_bool (Gallery.viewing p s.log)
      (Gallery.viewing p (⟨u, inp, x.response⟩ :: s.log)) u fun v hv => by simp [Gallery.viewing, Ne.symm hv]
    rw [hu.viewing p, hnew.viewing p] at hchange
    have hbefore := h.counts p
    have hmoved := hm.counts p
    dsimp only
    omega

/-- **The command of a visitor is handled.** -/
theorem Orderly.asked_handled (h : Orderly ids s) (hid : (ids u : ℤ) ≠ -1) {k : Call} {x : Reaction} {stay : Stay}
    (hi : s.slot u = some i) (hu : Fine ids s u k.before) (hpc : (s.proc u).pc = .wait k 0)
    (hup : (s.conn u).up = [k.message (ids u)]) (hdown : (s.conn u).down = []) (hcl : (s.conn u).closed = false)
    (hx : Answers s.server i (ids u) k x stay) :
    Orderly ids ⟨x.server, s.proc, fun v => (Function.update s.conn u
      { s.conn u with up := dropBytes (k.message (ids u)).length (s.conn u).up } v).deliver x.sends,
      ⟨u, .command (ids u) (some k.action) k.number, x.response⟩ :: s.log⟩ := by
  have hsock := Net.slot_eq_some hi
  have hw : Net.Wired ⟨x.server, s.proc, fun v => (Function.update s.conn u
      { s.conn u with up := dropBytes (k.message (ids u)).length (s.conn u).up } v).deliver x.sends,
      ⟨u, .command (ids u) (some k.action) k.number, x.response⟩ :: s.log⟩ :=
    @wired_handled _ _ _ h.wired _ _ _ _ _ _ False _ hi hx.clients_of_ne hx.fd rfl
  have hslot : ∀ {j}, Net.slot ⟨x.server, s.proc, fun v => (Function.update s.conn u
      { s.conn u with up := dropBytes (k.message (ids u)).length (s.conn u).up } v).deliver x.sends,
      ⟨u, .command (ids u) (some k.action) k.number, x.response⟩ :: s.log⟩ u = some j → i = j := by
    intro j hj
    have hi' := hw.slot_of (u := u) (i := i) (by simp [Conn.deliver, hsock, hx.fd])
    exact Option.some.inj (hi'.symm.trans hj)
  obtain ⟨hent, hentp⟩ := hx.answer.entry u
  refine h.handled stay hi hu hx.toMoves hx.fd rfl (by simp [hx.sends]) (fun he => by cases he) ?_
    ⟨?_, hu.shutdown, ?_, ?_, ?_, ?_, ?_⟩
  · simpa using hx.visitors
  · simp only [Function.update_self]
    refine .told hpc hx.answer ?_ ?_ hcl
    · simp only [Conn.deliver, hup]; exact dropBytes_length (message_ne_nil _ _) []
    · simp [Conn.deliver, hdown, hx.sends, hsock]
  · simpa [Gallery.inside, hu.inside] using hent
  · intro p
    simpa [Gallery.viewing, hu.viewing p] using hentp p
  · intro hwait
    simp [Conn.deliver, hsock] at hwait
  · intro j hj
    obtain rfl := hslot hj
    exact hx.painting
  · intro j hj _
    obtain rfl := hslot hj
    dsimp only
    rw [hx.visitorId]
    exact hid

/-- **The connection of a visitor that has left is closed.** -/
theorem Orderly.closed (h : Orderly ids s) {x : Reaction} (hi : s.slot u = some i) (hu : Fine ids s u .gone)
    (hpc : (s.proc u).pc = .closed) (hcl : (s.conn u).closed = true) (hx : react s.server i .closed = .ok x) :
    Orderly ids ⟨x.server, s.proc, fun v => (Function.update s.conn u
      { s.conn u with up := [], sock := .finished } v).deliver x.sends, ⟨u, .closed, x.response⟩ :: s.log⟩ := by
  obtain ⟨x', hx', hsends, hfd, hvis, hm⟩ := react_closed (h.knows hi hu) (hu.visitorId i hi (by simp))
  obtain rfl := Except.ok.inj (hx.symm.trans hx')
  have hgone : ∀ {j}, Net.slot ⟨x.server, s.proc, fun v => (Function.update s.conn u
      { s.conn u with up := [], sock := .finished } v).deliver x.sends, ⟨u, .closed, x.response⟩ :: s.log⟩ u ≠
      some j := by
    intro j hj
    have hj' := Net.slot_eq_some hj
    simp [Conn.deliver] at hj'
  refine h.handled .gone hi hu hm hfd rfl (by simp [hsends]) (fun _ => rfl) ?_
    ⟨?_, hu.shutdown, ?_, ?_, ?_, fun j hj => absurd hj hgone, fun j hj => absurd hj hgone⟩
  · rw [hvis, if_pos rfl]; omega
  · exact .gone hpc (.inl (by simp [Conn.deliver])) (by simp [Conn.deliver, hcl])
  · simp [Gallery.inside, Entry.inside, Stay.inside]
  · intro p
    simpa [Gallery.viewing, Entry.viewing] using hu.viewing p
  · intro hwait
    simp [Conn.deliver] at hwait

/-- **A step of a normal run.** -/
theorem Orderly.step (hids : ∀ u, (ids u : ℤ) ≠ -1) (h : Orderly ids s) {a : Label ι} {s' : Net ι Visitor}
    (hn : s.Normal a) (hs : step (fun u => (ids u : ℤ)) s a = some s') : Orderly ids s' := by
  cases a with
  | client u a =>
    obtain ⟨e, he, hs⟩ := Option.bind_eq_some_iff.1 hs
    obtain ⟨c, hc, rfl⟩ := Option.map_eq_some_iff.1 hs
    exact h.client hn he hc
  | accept u newSocket =>
    obtain ⟨⟨hb, hpos, hfresh⟩, hs⟩ := Option.ite_none_right_eq_some.1 hs
    obtain rfl := Option.some.inj hs
    exact h.accept hn hb hpos hfresh
  | server u r =>
    obtain ⟨i, hi, hs⟩ := Option.bind_eq_some_iff.1 hs
    obtain ⟨c, hc, hs⟩ := Option.bind_eq_some_iff.1 hs
    obtain ⟨x, hx, hs⟩ := Option.bind_eq_some_iff.1 hs
    obtain ⟨inp, hinp, rfl⟩ := Option.map_eq_some_iff.1 hs
    obtain ⟨stay, hu⟩ := h.visitors u
    cases r with
    | data buf =>
      have hn : (s.conn u).up.head? = some buf := hn
      obtain ⟨-, hc⟩ := Option.ite_none_right_eq_some.1 hc
      obtain rfl := Option.some.inj hc
      cases hu.loc with
      | start _ hup | ready _ hup | told _ _ hup => rw [hup] at hn; cases hn
      | @asked k _ hpc hk hup hdown hcl =>
        subst hk
        rw [hup] at hn
        obtain rfl := Option.some.inj hn
        have hd : decode (.data (k.message (ids u))) = .ok (.command (ids u) (some k.action) k.number) :=
          decode_message (ids u) k
        obtain ⟨x', stay', hx', hanswers⟩ := answers (ids u) (h.knows hi hu)
        rw [handleClientMessage, hd, Except.bind, hx'] at hx
        obtain rfl := Option.some.inj hx
        rw [hd] at hinp
        obtain rfl := Option.some.inj hinp
        exact h.asked_handled (hids u) hi hu hpc hup hdown hcl hanswers
      | gone hpc hup hcl =>
        rcases hup with hup | ⟨hat, -⟩
        · rw [hup] at hn; cases hn
        · cases hat
    | closed =>
      obtain ⟨hclosed, hc⟩ := Option.ite_none_right_eq_some.1 hc
      obtain rfl := Option.some.inj hc
      obtain rfl := Option.some.inj hinp
      cases hu.loc with
      | start _ _ _ hcl | ready _ _ _ hcl | asked _ _ _ _ hcl | told _ _ _ _ hcl =>
        rw [hcl] at hclosed; cases hclosed
      | gone hpc _ hcl =>
        refine h.closed hi hu hpc hcl ?_
        rw [handleClientMessage, decode, Except.bind] at hx
        cases hr : react s.server i .closed with
        | ok x' => rw [hr] at hx; exact congrArg Except.ok (Option.some.inj hx)
        | error f => rw [hr] at hx; cases hx

/-- **The counters of the first gallery.**  As long as nobody is interrupted,
    `painting_counts` is right all along, but every visitor whose disconnect has been
    handled is missing from `current_visitors`, so that there may be as many more than
    25 visitors inside. -/
theorem current_visitors (hids : ∀ u, (ids u : ℤ) ≠ -1) (h : (normalVisitors ids).Reachable s) :
    s.server.currentVisitors = num (fun u => inside s.log u = true) - num (Finished s) ∧
      num (fun u => inside s.log u = true) ≤ 25 + num (Finished s) ∧
      ∀ p, s.server.paintingCounts p = num (fun u => viewing p s.log u = true) ∧
        num (fun u => viewing p s.log u = true) ≤ 5 := by
  have ho : Orderly ids s := System.Inductive.reachable (S := normalVisitors ids) (J := Orderly ids)
    ⟨fun _ h => h ▸ Orderly.init ids, fun _ _ _ h hs => h.step hids hs.2 hs.1⟩ h
  have hcount := ho.count
  have hle : s.server.currentVisitors ≤ 25 := ho.visitors_le
  refine ⟨by omega, by omega, fun p => ⟨ho.counts p, ?_⟩⟩
  have hp := ho.counts p
  have hp_le : s.server.paintingCounts p ≤ 5 := ho.counts_le p
  omega

/-- The visitor 1 enters, sees all paintings, leaves and closes its connection. -/
def visit : List (Label Unit) :=
  entering ++ (List.finRange 5).flatMap seeing ++
    [.client () (.draw 0), .server () (.data (Call.exit.message 1)), .client () (.recv (exitOk 1)),
      .client () (.draw 0), .server () .closed]

theorem current_visitors_visit : ∃ s : Net Unit Visitor, s.server.currentVisitors = -1 ∧
    s.server.currentVisitors = num (fun u => inside s.log u = true) - num (Finished s) ∧
      num (fun u => inside s.log u = true) ≤ 25 + num (Finished s) ∧
      ∀ p, s.server.paintingCounts p = num (fun u => viewing p s.log u = true) ∧
        num (fun u => viewing p s.log u = true) ≤ 5 := by
  obtain ⟨s, -, he, hs⟩ := System.exec_of_any_restrict (G := Net.Normal) (.init fun _ => Visitor.init)
    (step fun _ : Unit => 1) visit (fun s => s.server.currentVisitors = -1) (by decide +kernel) (by decide +kernel)
  exact ⟨s, of_decide_eq_true hs, @current_visitors Unit _ _ (fun _ => .one) s (by decide) ⟨_, he⟩⟩

end Gallery.V4
