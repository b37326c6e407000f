/-
  The normal runs of the gallery of idz os 3/9 can always be completed: whatever has
  happened, all visitors may still see all paintings, leave, and be forgotten.
-/
import OsCourse.Gallery.Plan
import OsCourse.Gallery.Visits
import OsCourse.Lib.Traces

namespace Gallery

open Transition Counting

/-! ## Lengths -/

theorem length_fmtInt (n : CInt) : (Text.fmtInt n).length ≤ 11 := by
  obtain ⟨h1, h2⟩ := n.2
  exact Text.length_fmtInt_le (by decide) (by omega)

/-- A message of a visitor fits into the buffer. -/
theorem length_message (id : CInt) (k : Call) : (k.message id).length < bufferSize := by
  have hid := length_fmtInt id
  have hn : (Text.fmtInt k.number).length ≤ 11 := length_fmtInt ⟨k.number, isInt_number k⟩
  have hname : ∀ a : Action, a.name.length ≤ 14 := by
    intro a
    cases a <;> decide
  have := hname k.action
  have hle : (k.message id).length ≤ 40 := by
    simp only [Call.message, commandText, List.length_append, List.length_cons]
    omega
  exact hle.trans_lt (by decide)

/-- A reply fits into the buffer. -/
theorem Answer.length {id : CInt} {k : Call} {r : Text} {stay : Stay} (h : Answer id k r stay) :
    r.length < bufferSize := by
  have hword : ∀ word ∈ replyWords, word.length ≤ 14 := by decide
  have hone : ∀ {word : Text}, word ∈ replyWords → (word ++ Text.fmtInt id).length ≤ 40 := by
    intro word hw
    have := hword word hw
    have := length_fmtInt id
    rw [List.length_append]
    omega
  have htwo : ∀ {word : Text} (p : Painting), word ∈ replyWords →
      (word ++ (Text.fmtInt id ++ ' ' :: Text.fmtInt p.val)).length ≤ 40 := by
    intro word p hw
    have := hword word hw
    have := length_fmtInt id
    have := Text.length_fmtInt_le (n := p.val) (k := 10) (by decide) (by have := p.isLt; omega)
    simp only [List.length_append, List.length_cons]
    omega
  have hle : r.length ≤ 40 := by
    cases h with
    | viewOk p | viewWait p => exact htwo p (by simp [replyWords])
    | enterOk | enterWait | reenterOk | reenterWait | left | exit => exact hone (by simp [replyWords])
  exact hle.trans_lt (by decide)

theorem canRead_singleton {t : Text} (ht : t ≠ []) (hlen : t.length < bufferSize) : CanRead [t] t := by
  refine ⟨ht, hlen, ?_⟩
  rw [List.flatten_singleton]
  exact List.isPrefixOf_iff_prefix.2 (List.prefix_refl t)

/-! ## Leaving -/

/-- The visitor is on its way out. -/
def Pc.Leaving : Pc → Prop
  | .send .exit _ | .wait .exit _ | .returned | .closed => True
  | _ => False

/-- A visitor only leaves when it has seen all paintings. -/
structure Visitor.Planned (v : Visitor) : Prop extends v.Counted where
  leaving : v.pc.Leaving → v.paintingsToVisit = 0

namespace Visitor
variable {v : Visitor}

theorem planned_init : init.Planned := ⟨counted_init, nofun⟩

theorem leaving_viewLoop (hs : v.shutdown = false) (h : v.viewLoop.pc.Leaving) : v.viewLoop.paintingsToVisit = 0 := by
  rw [viewLoop, if_neg (by simp [hs])] at h ⊢
  split_ifs at h ⊢ with hpos
  · exact h.elim
  · exact Nat.eq_zero_of_not_pos hpos

theorem leaving_waitLoop (hs : v.shutdown = false) : ¬ v.waitLoop.pc.Leaving := by
  rw [waitLoop, if_neg (by simp [hs])]
  exact id

theorem leaving_afterCall (h : v.Planned) (hs : v.shutdown = false) {k : Call} {attempts : ℕ}
    (hpc : v.pc = .wait k attempts) (r : Text) (hl : (v.afterCall k (some r)).pc.Leaving) :
    (v.afterCall k (some r)).paintingsToVisit = 0 := by
  cases k with
  | enter | reenter =>
    simp only [Visitor.afterCall] at hl ⊢
    split_ifs at hl ⊢
    all_goals first | exact absurd hl (leaving_waitLoop hs) | exact leaving_viewLoop hs hl
  | view p =>
    simp only [Visitor.afterCall] at hl ⊢
    split_ifs at hl ⊢
    · exact hl.elim
    · exact leaving_viewLoop hs hl
  | leavePainting p => exact leaving_viewLoop hs hl
  | exit => exact h.leaving (by rw [hpc]; trivial)

/-- A step of a normal run. -/
theorem Planned.step (h : v.Planned) (hs : v.shutdown = false) {id : ℤ} {c : Conn} {a : Act} {e : Effect Visitor}
    (hn : c.NormalAct a) (he : Runs V9.client id v a e) : e.state.Planned := by
  refine ⟨h.toCounted.step he, fun hl => ?_⟩
  cases he with
  | connect => exact hl.elim
  | @send p k attempts hpc =>
    refine h.leaving ?_
    rw [hpc]
    cases k with
    | exit => trivial
    | _ => exact hl.elim
  | stopped _ hs' => rw [hs] at hs'; cases hs'
  | @choose p hpc =>
    simp only [Effect.goOn] at hl ⊢
    split_ifs at hl ⊢
    · exact leaving_viewLoop hs hl
    · exact hl.elim
  | ends hpc => exact h.leaving (by rw [hpc]; trivial)
  | recv hpc => exact leaving_afterCall h hs hpc _ hl
  | again | givesUp | fails | flagged | interrupted | killed => exact hn.elim

theorem viewLoop_pc_ne (v : Visitor) : v.viewLoop.pc ≠ .start := by
  unfold viewLoop
  split_ifs <;> exact Pc.noConfusion

theorem waitLoop_pc_ne (v : Visitor) : v.waitLoop.pc ≠ .start := by
  unfold waitLoop
  split_ifs
  · exact v.viewLoop_pc_ne
  · exact Pc.noConfusion

theorem afterCall_pc_ne (v : Visitor) (k : Call) (r : Option Text) : (v.afterCall k r).pc ≠ .start := by
  cases r with
  | none => cases k <;> exact Pc.noConfusion
  | some r =>
    cases k with
    | exit => exact Pc.noConfusion
    | leavePainting p => exact v.viewLoop_pc_ne
    | _ =>
      simp only [Visitor.afterCall]
      split_ifs
      all_goals first | exact v.viewLoop_pc_ne | exact v.waitLoop_pc_ne | exact Pc.noConfusion

/-- A program does not begin twice. -/
theorem Runs.pc_ne {id : ℤ} {c : Conn} {a : Act} {e : Effect Visitor} (hn : c.NormalAct a)
    (he : Runs V9.client id v a e) : e.state.pc ≠ .start := by
  cases he with
  | choose =>
    simp only [Effect.goOn]
    split_ifs
    · exact v.viewLoop_pc_ne
    · exact Pc.noConfusion
  | recv => exact v.afterCall_pc_ne _ _
  | again | givesUp | fails | flagged | interrupted | killed => exact hn.elim
  | _ => exact Pc.noConfusion

end Visitor

/-! ## The invariant -/

section Network
variable {ι : Type} {ids : ι → CInt} {s : Net ι Visitor} {u : ι}

/-- The connection of the visitor `u` is where its program is: it is connected unless
    the program has not begun, it has a slot when it is accepted, and the server
    finishes it after the program has closed it. -/
structure Attended (s : Net ι Visitor) (u : ι) : Prop where
  planned : (s.proc u).Planned
  begun : (s.proc u).pc = .start ↔ (s.conn u).sock = .none
  seated : ∀ fd, (s.conn u).sock = .accepted fd → ∃ i, s.slot u = some i
  closed : (s.conn u).sock = .finished → (s.conn u).closed = true

theorem attended_init (u : ι) : Attended (.init fun _ : ι => .init) u where
  planned := Visitor.planned_init
  begun := iff_of_true rfl rfl
  seated := nofun
  closed := nofun

variable [DecidableEq ι]

/-- A step of a visitor. -/
theorem Attended.client (h : ∀ v, Attended s v) (hw : s.Wired) (hs : (s.proc u).shutdown = false) {a : Act}
    {e : Effect Visitor} {c : Conn} (hn : (s.conn u).NormalAct a)
    (he : Visitor.step V9.client (ids u) (s.proc u) a = some e) (hc : (s.conn u).call a = some c) (v : ι) :
    Attended { s with proc := Function.update s.proc u e.state, conn := Function.update s.conn u (c.push e) } v := by
  obtain ⟨hplan, hbegun, hseated, hclosed⟩ := h v
  have hsock := Conn.call_sock hc
  have hruns := Visitor.runs_of_step he
  have hw' := hw.client (k := e.state) (c := c.push e) u (by simpa [Conn.push] using hsock)
  by_cases hvu : v = u
  · subst hvu
    refine ⟨by simpa using hplan.step hs hn hruns, ?_, ?_, ?_⟩
    · simp only [Function.update_self, Conn.push]
      refine iff_of_false (hruns.pc_ne hn) fun hnone => ?_
      rcases hsock with hsock | ⟨-, hsock⟩
      · -- a program that has not begun does nothing but connect
        have hpc := hbegun.2 (hsock ▸ hnone)
        cases hruns with
        | connect =>
          obtain ⟨-, hc⟩ := Option.ite_none_right_eq_some.1 hc
          obtain rfl := Option.some.inj hc
          cases hnone
        | send hpc' | stopped hpc' | choose hpc' | ends hpc' | recv hpc' => rw [hpc] at hpc'; cases hpc'
        | again | givesUp | fails | flagged | interrupted | killed => exact hn.elim
      · rw [hsock] at hnone; cases hnone
    · intro fd hfd
      simp only [Function.update_self, Conn.push] at hfd
      rcases hsock with hsock | ⟨-, hsock⟩
      · obtain ⟨i, hi⟩ := hseated fd (hsock ▸ hfd)
        refine ⟨i, hw'.slot_of ?_⟩
        simpa [Conn.push, hsock] using Net.slot_eq_some hi
      · rw [hsock] at hfd; cases hfd
    · intro hfin
      simp only [Function.update_self, Conn.push] at hfin ⊢
      rcases hsock with hsock | ⟨-, hsock⟩
      · rw [(Conn.call_spec hc).2.1, hclosed (hsock ▸ hfin), Bool.true_or]
      · rw [hsock] at hfin; cases hfin
  · refine ⟨by simpa [hvu] using hplan, by simpa [hvu] using hbegun, ?_, by simpa [hvu] using hclosed⟩
    intro fd hfd
    simp only [ne_eq, hvu, not_false_eq_true, Function.update_of_ne] at hfd
    obtain ⟨i, hi⟩ := hseated fd hfd
    exact ⟨i, hw'.slot_of (by simpa [hvu] using Net.slot_eq_some hi)⟩

/-- A connection is accepted. -/
theorem Attended.accept (h : ∀ v, Attended s v) (hw : s.Wired) (hroom : ∃ i, ¬ s.server.IsOpen i) {newSocket : ℤ}
    (hb : (s.conn u).sock = .backlog) (hpos : 0 < newSocket) (hfresh : ∀ v, (s.conn v).sock ≠ .accepted newSocket)
    (v : ι) : Attended { s with server := s.server.accept newSocket
                                conn := Function.update s.conn u { s.conn u with sock := .accepted newSocket } } v := by
  obtain ⟨hplan, hbegun, hseated, hclosed⟩ := h v
  have hw' := hw.accept hb hpos hfresh
  rcases s.server.accept_cases newSocket with ⟨k, -, hk, he⟩ | ⟨hall, -⟩
  swap
  · obtain ⟨i, hi⟩ := hroom; exact absurd (hall i) hi
  by_cases hvu : v = u
  · subst hvu
    refine ⟨hplan, ?_, fun fd hfd => ⟨k, hw'.slot_of (by simp [he])⟩, ?_⟩
    · simpa [hb] using hbegun
    · simp
  · refine ⟨hplan, by simpa [hvu] using hbegun, ?_, by simpa [hvu] using hclosed⟩
    intro fd hfd
    simp only [ne_eq, hvu, not_false_eq_true, Function.update_of_ne] at hfd
    obtain ⟨i, hi⟩ := hseated fd hfd
    have hopen := hw.slot_isOpen hi
    have hik : i ≠ k := by
      rintro rfl
      exact hopen hk
    exact ⟨i, hw'.slot_of (by simpa [hvu, he, hik] using Net.slot_eq_some hi)⟩

/-- A message is handled. -/
theorem Attended.server (h : ∀ v, Attended s v) (hw : s.Wired) {w : Version} {i : Slot} {r : Read} {inp : Input}
    {x : Reaction} {c : Conn} (hi : s.slot u = some i) (hc : (s.conn u).read r = some c) (hd : decode r = .ok inp)
    (hh : w.Handles s.server i inp x) (log : List (Entry ι)) (v : ι) :
    Attended { server := x.server, proc := s.proc, log := log
               conn := fun v => (Function.update s.conn u c v).deliver x.sends } v := by
  obtain ⟨hplan, hbegun, hseated, hclosed⟩ := h v
  have hsock := Conn.read_sock hc hd
  have hw' := hw.server log hi hh hsock
  have hu := Net.slot_eq_some hi
  by_cases hvu : v = u
  · subst hvu
    refine ⟨hplan, ?_, ?_, ?_⟩
    · simp only [Function.update_self, Conn.deliver, hsock]
      rw [hbegun, hu]
      split_ifs <;> simp
    · intro fd hfd
      simp only [Function.update_self, Conn.deliver, hsock] at hfd
      split_ifs at hfd with hinp
      exact ⟨i, hw'.slot_of ((hw.reached hi hh hsock).2 ⟨hi, fun he => absurd he hinp⟩).2⟩
    · intro hfin
      simp only [Function.update_self, Conn.deliver, hsock] at hfin ⊢
      split_ifs at hfin with hinp
      · cases r with
        | closed =>
          obtain ⟨hcl, hc⟩ := Option.ite_none_right_eq_some.1 hc
          obtain rfl := Option.some.inj hc
          exact hcl
        | data buf => exact absurd hinp (decode_data_ne_closed hd)
      · rw [hu] at hfin; cases hfin
  · have hconn : Function.update s.conn u c v = s.conn v := Function.update_of_ne hvu _ _
    refine ⟨hplan, ?_, ?_, ?_⟩
    · simpa [hconn, Conn.deliver] using hbegun
    · intro fd hfd
      obtain ⟨j, hj⟩ := hseated fd (by simpa [hconn, Conn.deliver] using hfd)
      exact ⟨j, hw'.slot_of ((hw.reached hi hh hsock).2 ⟨hj, fun _ => hvu⟩).2⟩
    · simpa [hconn, Conn.deliver] using hclosed

/-- A visitor that has been answered, and has not left, has a slot. -/
theorem Fine.accepted {stay : Stay} (hfine : Fine V9.client ids s u stay) (ha : Attended s u) (hout : stay ≠ .out)
    (hgone : stay ≠ .gone) : ∃ fd, (s.conn u).sock = .accepted fd := by
  cases hsock : (s.conn u).sock with
  | none => exact absurd (hfine.waiting (.inl hsock)) hout
  | backlog => exact absurd (hfine.waiting (.inr hsock)) hout
  | accepted fd => exact ⟨fd, rfl⟩
  | finished =>
    have hclosed := ha.closed hsock
    cases hfine.loc with
    | start _ _ _ hcl | ready _ _ _ hcl | asked _ _ _ _ hcl | told _ _ _ _ hcl => rw [hcl] at hclosed; cases hclosed
    | gone => exact absurd rfl hgone

variable [Fintype ι]

theorem V9.attended (h : (V9.normalVisitors ids).Reachable s) : ∀ u, Attended s u := by
  refine And.right (System.Inductive.reachable (S := V9.normalVisitors ids)
    (J := fun s => Orderly V9.client ids s ∧ ∀ u, Attended s u) ⟨?_, ?_⟩ h)
  · rintro _ rfl
    exact ⟨Orderly.init ids, attended_init⟩
  · rintro s a s' ⟨ho, ha⟩ ⟨hs, hn⟩
    refine ⟨ho.step V9.sound V9.gentle hn (ho.firstExit rfl hn) hs, ?_⟩
    obtain ⟨u, act, e, c, rfl, he, hc, rfl⟩ | ⟨u, newSocket, rfl, hb, hpos, hfresh, rfl⟩ |
      ⟨u, r, i, c, inp, x, rfl, hi, hc, hd, hh, rfl⟩ := Net.step_cases ho.legal hs
    · obtain ⟨stay, hu⟩ := ho.visitors u
      exact Attended.client ha ho.wired hu.shutdown hn he hc
    · exact Attended.accept ha ho.wired hn hb hpos hfresh
    · exact Attended.server ha ho.wired hi hc hd hh _

end Network

/-! ## The steps to come -/

/-- The steps that follow when the call has been sent, and has been granted, with `n`
    paintings to visit. -/
def Call.steps (n : ℕ) : Call → ℕ
  | .enter | .reenter => 6 + 7 * n
  | .view _ => 2 + 7 * n
  | .leavePainting _ => 6 + 7 * n
  | .exit => 3

def Pc.steps (n : ℕ) : Pc → ℕ
  | .start => 7 + 7 * n
  | .send k _ => k.steps n + 1
  | .wait k _ => k.steps n
  | .choose => 4 + 7 * n
  | .returned => 1
  | .closed => 0

def Sock.steps : Sock → ℕ
  | .none => 3
  | .backlog => 2
  | .accepted _ => 1
  | .finished => 0

def Visitor.steps (v : Visitor) : ℕ := v.pc.steps v.paintingsToVisit

/-- A reply on the way decides how the visitor goes on. -/
def Visitor.stepsAfter (v : Visitor) (down : List Text) : ℕ :=
  match v.pc, down with
  | .wait k _, r :: _ => (v.afterCall k (some r)).steps + 1
  | _, _ => v.steps

/-- The steps to come of a visitor and its connection. -/
def rest (v : Visitor) (c : Conn) : ℕ := v.stepsAfter c.down + c.sock.steps

section Rest
variable {v : Visitor} {c : Conn} {k : Call} {attempts : ℕ}

theorem rest_of_nil (h : c.down = []) : rest v c = v.steps + c.sock.steps := by
  unfold rest Visitor.stepsAfter
  rw [h]
  split
  · next heq => cases heq
  · rfl

theorem rest_of_closed (h : v.pc = .closed) : rest v c = c.sock.steps := by
  unfold rest Visitor.stepsAfter Visitor.steps
  rw [h]
  exact Nat.zero_add _

theorem rest_of_reply (h : v.pc = .wait k attempts) {r : Text} (hr : c.down = [r]) :
    rest v c = (v.afterCall k (some r)).steps + 1 + c.sock.steps := by
  unfold rest Visitor.stepsAfter
  rw [h, hr]

theorem Visitor.steps_viewLoop (hs : v.shutdown = false) : v.viewLoop.steps = 4 + 7 * v.paintingsToVisit := by
  rw [viewLoop, if_neg (by simp [hs])]
  split_ifs with hpos
  · rfl
  · simp only [steps, Pc.steps, Call.steps]
    omega

/-- Where the visitor is follows from what it is about to do. -/
theorem Visitor.Ready.unique {stay stay' : Stay} (h : v.Ready stay) (h' : v.Ready stay') : stay = stay' := by
  obtain ⟨k, hpc, rfl⟩ | ⟨hpc, rfl⟩ | ⟨hpc, rfl⟩ := h
  all_goals
    obtain ⟨k', hpc', rfl⟩ | ⟨hpc', rfl⟩ | ⟨hpc', rfl⟩ := h'
    all_goals have heq := hpc.symm.trans hpc'
  · obtain rfl := (Pc.send.inj heq).1
    rfl
  all_goals first | rfl | cases heq

/-- **A call that is granted brings the visitor on.** -/
theorem Answer.steps_lt {id : ℤ} {r : Text} {stay : Stay} (h : Answer id k r stay) (hne : stay ≠ k.before)
    (hplan : v.Planned) (hs : v.shutdown = false) (hpc : v.pc = .wait k attempts) :
    (v.afterCall k (some r)).steps + 1 < v.steps := by
  have hready := h.ready hs
  have hview := Visitor.viewLoop_ready hs
  have hwait := Visitor.waitLoop_ready hs
  have hsteps := Visitor.steps_viewLoop hs
  have hv : v.steps = k.steps v.paintingsToVisit := by
    rw [Visitor.steps, hpc]
    rfl
  rw [hv]
  cases h with
  | enterWait | reenterWait | viewWait => exact absurd rfl hne
  | enterOk | reenterOk =>
    simp only [Visitor.afterCall] at hready ⊢
    split_ifs at hready ⊢
    all_goals first | cases hready.unique hwait | (rw [hsteps, Call.steps]; omega)
  | viewOk p =>
    have hp : v.visited p = false := by
      have := hplan.pc
      rwa [hpc] at this
    have hpos := hplan.pos hp
    simp only [Visitor.afterCall] at hready ⊢
    split_ifs at hready ⊢
    · simp only [Visitor.steps, Pc.steps, Call.steps]
      omega
    · cases hready.unique hview
  | left p =>
    simp only [Visitor.afterCall, Call.steps]
    omega
  | exit =>
    simp only [Visitor.afterCall, Visitor.steps, Pc.steps, Call.steps]
    omega

end Rest

/-- A call is granted where there is room. -/
theorem Version.Handles.granted {w : Version} {s : Server} {i : Slot} {id : ℤ} {k : Call} {x : Reaction} {stay : Stay}
    (hh : w.Handles s i (.command id (some k.action) k.number) x) (ha : Answer id k x.response stay)
    (hserved : Served s i x k.before stay) (hvisitors : k.before = .out → s.currentVisitors < maxVisitors)
    (hcounts : k.before = .hall → ∀ p, s.paintingCounts p < maxPaintingVisitors) : stay ≠ k.before := by
  intro heq
  have hin := hserved.visitors
  rw [heq] at hin
  have henter (hk : k.action = .enter) (hout : k.before = .out) : False := by
    rw [hk] at hh
    cases hh with
    | enterOk => simp [reply, hout] at hin
    | enterWait hge => exact hge (hvisitors hout)
  cases k with
  | enter => exact henter rfl rfl
  | reenter => exact henter rfl rfl
  | view p =>
    have hview := hserved.counts p
    rw [heq] at hview
    generalize hn : Call.number (.view p) = n at hh
    have hn : (p.val : ℤ) = n := hn
    cases hh with
    | @viewOk _ q =>
      obtain rfl : p = q := Fin.ext (by omega)
      simp [reply, Call.before] at hview
    | @viewWait _ q hge => exact hge (hcounts rfl q)
    | viewNone hnone => rw [painting?_eq_some.2 hn.symm] at hnone; cases hnone
  | leavePainting | exit =>
    generalize x.response = r at ha
    cases ha
    cases heq

/-! ## Some step can be taken -/

section Progress
variable {ι : Type} [DecidableEq ι] [Fintype ι] {ids : ι → CInt} {s : Net ι Visitor} {u : ι}

/-- The steps to come of all visitors. -/
def Net.rest (s : Net ι Visitor) : ℕ := ∑ u, Gallery.rest (s.proc u) (s.conn u)

/-- A step of a normal run of the network after which less is left to do. -/
def V9.GoesOn (ids : ι → CInt) (s : Net ι Visitor) : Prop :=
  ∃ a s', (V9.normalVisitors ids).step s a s' ∧ s'.rest < s.rest

/-- It is enough that one visitor has less to do, and the others are not touched. -/
theorem V9.goesOn_of_step {a : Label ι} {t : Net ι Visitor} (hs : (V9.normalVisitors ids).step s a t)
    (hne : ∀ v, v ≠ u → rest (t.proc v) (t.conn v) = rest (s.proc v) (s.conn v))
    (hlt : rest (t.proc u) (t.conn u) < rest (s.proc u) (s.conn u)) : V9.GoesOn ids s := by
  refine ⟨a, t, hs, ?_⟩
  have := sum_change (f := fun v => rest (s.proc v) (s.conn v)) (g := fun v => rest (t.proc v) (t.conn v)) u hne
  unfold Net.rest
  omega

theorem V9.goesOn_of_client {a : Act} {e : Effect Visitor} {c : Conn}
    (he : Visitor.step V9.client (ids u) (s.proc u) a = some e) (hc : (s.conn u).call a = some c)
    (hn : (s.conn u).NormalAct a) (hlt : rest e.state (c.push e) < rest (s.proc u) (s.conn u)) :
    V9.GoesOn ids s := by
  refine V9.goesOn_of_step (u := u) (a := .client u a) (t := { s with
    proc := Function.update s.proc u e.state
    conn := Function.update s.conn u (c.push e) }) ⟨?_, hn⟩ (fun v hv => by simp [hv]) (by simpa using hlt)
  show Net.step V9.version _ s (.client u a) = some _
  rw [Net.step, he, Option.bind_some, hc]
  rfl

/-- The handler is called for `u`. -/
theorem V9.goesOn_of_server {i : Slot} {r : Read} {c : Conn} {inp : Input} {x : Reaction} (hw : s.Wired)
    (hi : s.slot u = some i) (hc : (s.conn u).read r = some c) (hd : decode r = .ok inp)
    (hx : V9.version.react s.server i inp = .ok x) (hn : s.Normal (.server u r))
    (hsends : ∀ m ∈ x.sends, m.1 = (s.server.clients i).fd)
    (hlt : rest (s.proc u) (c.deliver x.sends) < rest (s.proc u) (s.conn u)) : V9.GoesOn ids s := by
  have hu := Net.slot_eq_some hi
  refine V9.goesOn_of_step (u := u) (a := .server u r) (t := {
    server := x.server
    proc := s.proc
    conn := fun v => (Function.update s.conn u c v).deliver x.sends
    log := ⟨u, inp, x.response⟩ :: s.log }) ⟨?_, hn⟩ (fun v hv => ?_) (by simpa using hlt)
  · show Net.step V9.version _ s (.server u r) = some _
    rw [Net.step, hi, Option.bind_some, hc, Option.bind_some, Net.handle, Version.handleClientMessage, hd, Except.bind,
      hx]
    rfl
  · have hne : ∀ m ∈ x.sends, (s.conn v).sock ≠ .accepted m.1 := by
      intro m hm hv'
      rw [hsends m hm] at hv'
      exact hv (hw.inj hv' hu)
    dsimp only
    rw [Function.update_of_ne hv, Conn.deliver_of_ne hne]

/-- A visitor that is not waiting for a reply goes on. -/
theorem V9.goesOn_of_ready (hs : (s.proc u).shutdown = false) (hplan : (s.proc u).Planned) {stay : Stay}
    (hr : (s.proc u).Ready stay) (hdown : (s.conn u).down = []) : V9.GoesOn ids s := by
  have hrest := rest_of_nil (v := s.proc u) hdown
  obtain ⟨k, hpc, -⟩ | ⟨hpc, -⟩ | ⟨hpc, -⟩ := hr
  · refine V9.goesOn_of_client (u := u) (a := .go 0) (c := s.conn u) ?_ rfl trivial ?_
      (e := { state := { s.proc u with pc := .wait k 0 }, sends := [k.message (ids u)], closes := false })
    · simp [Visitor.step, hpc, hs]
    · rw [rest_of_nil (by simpa [Conn.push] using hdown), hrest, Visitor.steps, Visitor.steps, hpc]
      exact Nat.add_lt_add_right (Nat.lt_succ_self _) _
  · -- it finds a painting that it has not seen
    obtain ⟨p, hp⟩ := hplan.exists_unvisited hpc
    refine V9.goesOn_of_client (u := u) (a := .go p) (c := s.conn u) ?_ rfl trivial ?_
      (e := .goOn { s.proc u with pc := .send (.view p) 0 })
    · simp [Visitor.step, hpc, hp]
    · rw [rest_of_nil (by simpa [Conn.push, Effect.goOn] using hdown), hrest, Visitor.steps, Visitor.steps, hpc]
      simp only [Effect.goOn, Pc.steps, Call.steps, Conn.push]
      omega
  · refine V9.goesOn_of_client (u := u) (a := .go 0) (c := s.conn u) ?_ rfl trivial ?_ (e := (s.proc u).leave)
    · simp [Visitor.step, hpc, V9.client]
    · rw [rest_of_closed rfl, hrest, Visitor.steps, hpc]
      simp only [Conn.push, Pc.steps]
      omega

/-- A visitor that has been sent a reply receives it. -/
theorem V9.goesOn_of_told {k : Call} {attempts : ℕ} {r : Text} {stay : Stay} (hpc : (s.proc u).pc = .wait k attempts)
    (ha : Answer (ids u) k r stay) (hdown : (s.conn u).down = [r]) : V9.GoesOn ids s := by
  refine V9.goesOn_of_client (u := u) (a := .recv r) (c := { s.conn u with down := [] }) ?_ ?_ ?_ ?_
    (e := .goOn ((s.proc u).afterCall k (some r)))
  · simp [Visitor.step, hpc, ha.cstr, V9.client]
  · simp only [Conn.call, hdown]
    rw [if_pos (canRead_singleton ha.ne_nil ha.length), dropBytes_length ha.ne_nil]
  · simp [Conn.NormalAct, hdown]
  · rw [rest_of_reply hpc hdown, rest_of_nil rfl]
    simp only [Conn.push, Effect.goOn]
    omega

/-- The server grants the call of a visitor, where there is room. -/
theorem V9.goesOn_of_asked (ho : Orderly V9.client ids s) (hplan : (s.proc u).Planned) {i : Slot} {k : Call}
    (hi : s.slot u = some i) (hu : Fine V9.client ids s u k.before) (hpc : (s.proc u).pc = .wait k 0)
    (hup : (s.conn u).up = [k.message (ids u)]) (hdown : (s.conn u).down = [])
    (hvisitors : k.before = .out → s.server.currentVisitors < maxVisitors)
    (hcounts : k.before = .hall → ∀ p, s.server.paintingCounts p < maxPaintingVisitors) : V9.GoesOn ids s := by
  obtain ⟨x, hx, hh⟩ := V9.version.react_spec (ho.legal i) (.command (ids u) (some k.action) k.number)
  obtain ⟨stay, ha, hserved⟩ := Version.Handles.served V9.sound (ho.serves hi hu) hh
  have hmon : ∀ j, (x.server.clients j).isMonitor = false :=
    fun j => (hh.isMonitor_eq (by simp) j).trans (ho.monitors j)
  have hsends := hh.sends_eq hmon ha.ne_nil
  have hne := hh.granted ha hserved hvisitors hcounts
  have hmsg := message_ne_nil (ids u) k
  have hsock := Net.slot_eq_some hi
  refine V9.goesOn_of_server ho.wired hi (r := .data (k.message (ids u))) (c := { s.conn u with up := [] }) ?_
    (decode_message (ids u) k) hx (by simp [Net.Normal, hup]) (by simp [hsends]) ?_
  · simp only [Conn.read, hup]
    rw [if_pos (canRead_singleton hmsg (length_message _ _)), dropBytes_length hmsg]
  · rw [rest_of_nil hdown, rest_of_reply hpc (r := x.response) (by simp [Conn.deliver, hdown, hsends, hsock])]
    exact Nat.add_lt_add_right (ha.steps_lt hne hplan hu.shutdown hpc) _

/-- The server finds that a visitor has gone. -/
theorem V9.goesOn_of_gone (ho : Orderly V9.client ids s) {i : Slot} (hi : s.slot u = some i)
    (hpc : (s.proc u).pc = .closed) (hup : (s.conn u).up = []) (hcl : (s.conn u).closed = true) : V9.GoesOn ids s := by
  obtain ⟨x, hx, hh⟩ := V9.version.react_spec (ho.legal i) .closed
  have hmon : ∀ j, (x.server.clients j).isMonitor = false :=
    fun j => (hh.isMonitor_eq (by simp) j).trans (ho.monitors j)
  have hsends : x.sends = [] := by
    cases hh with
    | closed => exact Version.broadcastStatus_eq_nil hmon
  have hsock := Net.slot_eq_some hi
  refine V9.goesOn_of_server ho.wired hi (r := .closed) (c := { s.conn u with up := [], sock := .finished }) ?_ rfl hx
    hup (by simp [hsends]) ?_
  · simp [Conn.read, hcl]
  · rw [rest_of_closed hpc, rest_of_closed hpc, hsock]
    exact Nat.zero_lt_one

/-- A visitor with a slot can go on where there is room for it. -/
theorem V9.goesOn_of_accepted (ho : Orderly V9.client ids s) (ha : Attended s u) {fd : ℤ}
    (hfd : (s.conn u).sock = .accepted fd) {stay : Stay} (hu : Fine V9.client ids s u stay)
    (hvisitors : stay = .out → s.server.currentVisitors < maxVisitors)
    (hcounts : stay = .hall → ∀ p, s.server.paintingCounts p < maxPaintingVisitors) : V9.GoesOn ids s := by
  obtain ⟨i, hi⟩ := ha.seated fd hfd
  cases hu.loc with
  | start hpc =>
    rw [ha.begun.1 hpc] at hfd
    cases hfd
  | ready hr _ hdown => exact V9.goesOn_of_ready hu.shutdown ha.planned hr hdown
  | asked hpc hk hup hdown =>
    subst hk
    exact V9.goesOn_of_asked ho ha.planned hi hu hpc hup hdown hvisitors hcounts
  | told hpc hanswer _ hdown => exact V9.goesOn_of_told hpc hanswer hdown
  | gone hpc hup hcl =>
    rcases hup with hup | ⟨hat, -⟩
    · exact V9.goesOn_of_gone ho hi hpc hup hcl
    · cases hat

theorem V9.goesOn_of_none (ha : Attended s u) (hu : (s.conn u).sock = .none) {stay : Stay}
    (hfine : Fine V9.client ids s u stay) : V9.GoesOn ids s := by
  have hpc := ha.begun.2 hu
  have hdown : (s.conn u).down = [] := by
    cases hfine.loc with
    | start _ _ hdown | ready _ _ hdown | asked _ _ _ hdown => exact hdown
    | told hpc' | gone hpc' => rw [hpc] at hpc'; cases hpc'
  refine V9.goesOn_of_client (u := u) (a := .connect) (c := { s.conn u with sock := .backlog }) ?_ ?_ trivial ?_
    (e := .goOn { s.proc u with pc := .send .enter 0 })
  · simp [Visitor.step, hpc]
  · simp [Conn.call, hu]
  · rw [rest_of_nil (by simpa [Conn.push] using hdown), rest_of_nil hdown, Visitor.steps, Visitor.steps, hpc, hu]
    simp only [Effect.goOn, Conn.push, Pc.steps, Call.steps, Sock.steps]
    omega

theorem V9.goesOn_of_backlog (hw : s.Wired) (hu : (s.conn u).sock = .backlog)
    (hnone : ∀ v fd, (s.conn v).sock ≠ .accepted fd) : V9.GoesOn ids s := by
  have hroom : ∃ i, ¬ s.server.IsOpen i := by
    refine ⟨0, fun hopen => ?_⟩
    obtain ⟨v, hv⟩ := hw.owner hopen
    exact hnone v _ hv
  refine V9.goesOn_of_step (u := u) (a := .accept u 1) (t := { s with
    server := s.server.accept 1
    conn := Function.update s.conn u { s.conn u with sock := .accepted 1 } }) ⟨?_, hroom⟩ (fun v hv => by simp [hv]) ?_
  · show Net.step V9.version _ s (.accept u 1) = some _
    rw [Net.step, if_pos ⟨hu, by decide, fun v => hnone v 1⟩]
  · simp only [Function.update_self, rest, hu]
    exact Nat.add_lt_add_left (Nat.lt_succ_self _) _

/-- **Somebody can go on** until the server has finished all connections. -/
theorem V9.goesOn (ho : Orderly V9.client ids s) (ha : ∀ u, Attended s u)
    (hleft : ¬ ∀ u, (s.conn u).sock = .finished) : V9.GoesOn ids s := by
  by_cases hview : ∃ u p, viewing p s.log u = true
  · obtain ⟨u, p, hp⟩ := hview
    obtain ⟨stay, hfine⟩ := ho.visitors u
    have hstay : stay = .at p := by
      have := (hfine.viewing p).symm.trans hp
      cases stay with
      | «at» q => simpa [Stay.viewing] using this
      | _ => cases this
    subst hstay
    obtain ⟨fd, hfd⟩ := hfine.accepted (ha u) (by simp) (by simp)
    exact V9.goesOn_of_accepted ho (ha u) hfd hfine (by simp) (by simp)
  have hcounts : ∀ p, s.server.paintingCounts p < maxPaintingVisitors := by
    intro p
    have hzero : num (fun u => viewing p s.log u = true) = 0 :=
      Nat.eq_zero_of_not_pos fun hpos => hview ((exists_of_num_pos hpos).imp fun _ hu => ⟨p, hu⟩)
    rw [(ho.counts p).1, hzero]
    decide
  by_cases hinside : ∃ u, inside s.log u = true
  · obtain ⟨u, hin⟩ := hinside
    obtain ⟨stay, hfine⟩ := ho.visitors u
    have hstay : stay.inside = true := hfine.inside.symm.trans hin
    obtain ⟨fd, hfd⟩ := hfine.accepted (ha u) (by rintro rfl; cases hstay) (by rintro rfl; cases hstay)
    exact V9.goesOn_of_accepted ho (ha u) hfd hfine (by rintro rfl; cases hstay) fun _ => hcounts
  have hvisitors : s.server.currentVisitors < maxVisitors := by
    have hzero : num (fun u => inside s.log u = true) = 0 :=
      Nat.eq_zero_of_not_pos fun hpos => hinside (exists_of_num_pos hpos)
    rw [ho.admits.1, hzero]
    decide
  by_cases haccepted : ∃ u fd, (s.conn u).sock = .accepted fd
  · obtain ⟨u, fd, hfd⟩ := haccepted
    obtain ⟨stay, hfine⟩ := ho.visitors u
    exact V9.goesOn_of_accepted ho (ha u) hfd hfine (fun _ => hvisitors) fun _ => hcounts
  push Not at haccepted hleft
  obtain ⟨u, hu⟩ := hleft
  obtain ⟨stay, hfine⟩ := ho.visitors u
  cases hsock : (s.conn u).sock with
  | none => exact V9.goesOn_of_none (ha u) hsock hfine
  | backlog => exact V9.goesOn_of_backlog ho.wired hsock haccepted
  | accepted fd => exact absurd hsock (haccepted u fd)
  | finished => exact absurd hsock hu

/-- **Every visit can be completed.**  Whatever has happened in a normal run, it can go on
    so that all visitors see all paintings, leave and close their connections, and the
    server is as empty as in the beginning. -/
theorem V9.can_finish (h : (V9.normalVisitors ids).Reachable s) : ∃ tr s', (V9.normalVisitors ids).Steps s tr s' ∧
    (∀ u, (s'.proc u).pc = .closed ∧ (∀ p, (s'.proc u).visited p = true) ∧ (s'.conn u).sock = .finished) ∧
      (∀ i, ¬ s'.server.IsOpen i) ∧ s'.server.currentVisitors = 0 ∧ ∀ p, s'.server.paintingCounts p = 0 := by
  obtain ⟨tr, s', hsteps, hfin⟩ := h.exists_steps (E := fun s => ∀ u, (s.conn u).sock = .finished)
    Net.rest fun s hs hE => V9.goesOn (V9.orderly hs) (V9.attended hs) hE
  have hr := h.steps hsteps
  have ho := V9.orderly hr
  have hgone : ∀ u, (s'.proc u).pc = .closed ∧ Fine V9.client ids s' u .gone := by
    intro u
    obtain ⟨stay, hfine⟩ := ho.visitors u
    have hclosed := (V9.attended hr u).closed (hfin u)
    cases hfine.loc with
    | start _ _ _ hcl | ready _ _ _ hcl | asked _ _ _ _ hcl | told _ _ _ _ hcl => rw [hcl] at hclosed; cases hclosed
    | gone hpc => exact ⟨hpc, hfine⟩
  have hzero : ∀ {P : ι → Prop} [DecidablePred P], (∀ u, ¬ P u) → num P = 0 := by
    intro P _ hP
    exact Nat.eq_zero_of_not_pos fun hpos => (exists_of_num_pos hpos).elim hP
  refine ⟨tr, s', hsteps, fun u => ⟨(hgone u).1, ?_, hfin u⟩, ?_, ?_, ?_⟩
  · intro p
    by_contra hp
    have hplan := (V9.attended hr u).planned
    have hnone := hplan.leaving (by rw [(hgone u).1]; trivial)
    have := hplan.pos (Bool.eq_false_iff.2 hp)
    omega
  · intro i hi
    obtain ⟨u, hu⟩ := ho.wired.owner hi
    rw [hfin u] at hu
    cases hu
  · rw [ho.admits.1, hzero fun u => by rw [(hgone u).2.inside]; exact Bool.noConfusion]
    rfl
  · intro p
    rw [(ho.counts p).1, hzero fun u => by rw [(hgone u).2.viewing p]; exact Bool.noConfusion]
    rfl

theorem V9.can_finish_entering : ∃ s : Net Unit Visitor, s.server.currentVisitors = 1 ∧
    ∃ tr s', (V9.normalVisitors fun _ : Unit => .one).Steps s tr s' ∧
      (∀ u, (s'.proc u).pc = .closed ∧ (∀ p, (s'.proc u).visited p = true) ∧ (s'.conn u).sock = .finished) ∧
        (∀ i, ¬ s'.server.IsOpen i) ∧ s'.server.currentVisitors = 0 ∧ ∀ p, s'.server.paintingCounts p = 0 := by
  obtain ⟨s, -, he, hs⟩ := System.exec_of_any_restrict (G := Net.Normal) (.init fun _ => Visitor.init)
    (Net.step V9.version fun _ : Unit => Visitor.step V9.client 1) entering
    (fun s => s.server.currentVisitors = 1) (by decide +kernel) (by decide +kernel)
  exact ⟨s, of_decide_eq_true hs, V9.can_finish ⟨_, he⟩⟩

end Progress

end Gallery
