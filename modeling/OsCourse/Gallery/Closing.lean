/-
  The end of the gallery of idz os 3/10: the server is stopped at any moment, tells its
  clients and exits.  What becomes of the visitors.
-/
import OsCourse.Gallery.Plan
import OsCourse.Gallery.Visits
import OsCourse.Lib.Traces

namespace Gallery

open Transition Counting

/-! ## The server -/

def shutdownText : Text := "SERVER_SHUTDOWN".toList

/-- `notify_shutdown` -/
def Server.notifyShutdown (s : Server) : List (ℤ × Text) :=
  (List.finRange maxClients).filterMap fun i => if s.IsOpen i then some ((s.clients i).fd, shutdownText) else none

/-- The process of the server ends, and with it its end of the connection. -/
def Conn.hangUp (c : Conn) : Conn :=
  match c.sock with
  | .none => c
  | _ => { c with sock := .finished }

/-! ## The visitors afterwards -/

/-- The program of the visitor `id` when there is no server: `connect_with_retry`
    returns -1, and `cleanup` has no socket. -/
def Visitor.stepLate (id : ℤ) : Program Visitor := fun v a =>
  match a with
  | .connect => if v.pc = .start then some v.leave else none
  | a => Visitor.step V10.client id v a

/-- What a system call takes from the connection then.  `send` may still succeed. -/
def Conn.callLate (c : Conn) : Act → Option Conn
  | .connect => some c
  | a => c.call a

/-- The gallery, and `stop_server`. -/
structure House (ι : Type) where
  net : Net ι Visitor
  stopServer : Bool

/-- A step of the network, or a signal for the server. -/
inductive HouseLabel (ι : Type)
  | net (a : Label ι)
  | signal

/-- A visitor is killed. -/
def HouseLabel.IsKill {ι : Type} : HouseLabel ι → Prop
  | .net (.client _ .kill) => True
  | _ => False

namespace House
variable {ι : Type}

def init : House ι := { net := .init fun _ => .init, stopServer := false }

/-- `handle_signal` in the server.  The signal may also come while a message is handled: then
    nobody reads it any more, nor the counters. -/
def handleSignal (s : House ι) : House ι where
  net := { s.net with conn := fun u => ((s.net.conn u).deliver s.net.server.notifyShutdown).hangUp }
  stopServer := true

variable [DecidableEq ι] [Fintype ι]

def step (ids : ι → ℤ) (s : House ι) : HouseLabel ι → Option (House ι)
  | .signal => if s.stopServer then none else some s.handleSignal
  | .net a =>
    if s.stopServer then
      match a with
      | .client u a =>
        (Visitor.stepLate (ids u) (s.net.proc u) a).bind fun e => ((s.net.conn u).callLate a).map fun c =>
          { s with net := { s.net with
            proc := Function.update s.net.proc u e.state
            conn := Function.update s.net.conn u (c.push e) } }
      | _ => none
    else (Net.step V10.version (fun u => Visitor.step V10.client (ids u)) s.net a).map fun net => { s with net := net }

end House

/-- The server, which may be stopped, and the visitors with the given numbers. -/
def V10.house {ι : Type} [DecidableEq ι] [Fintype ι] (ids : ι → ℤ) : System (House ι) (HouseLabel ι) :=
  .ofFn .init (House.step ids)

/-! ## Who is told -/

/-- One member of a list without duplicates is picked out. -/
theorem filterMap_single {α β : Type} [DecidableEq α] {l : List α} (hl : l.Nodup) {a : α} (ha : a ∈ l) (b : β) :
    l.filterMap (fun i => if a = i then some b else none) = [b] := by
  induction l with
  | nil => cases ha
  | cons i l ih =>
    obtain ⟨hi, hl⟩ := List.nodup_cons.1 hl
    by_cases hai : a = i
    · subst hai
      have hrest : l.filterMap (fun i => if a = i then some b else none) = [] :=
        by
        refine List.filterMap_eq_nil_iff.2 fun j hj => if_neg ?_
        rintro rfl
        exact hi hj
      simp [hrest]
    · rw [List.filterMap_cons, if_neg hai]
      exact ih hl ((List.mem_cons.1 ha).resolve_left hai)

/-- The clients in the table are told, each of them once. -/
theorem Net.Wired.news_notifyShutdown {ι : Type} {s : Net ι Visitor} (h : s.Wired) (u : ι) :
    (s.conn u).news s.server.notifyShutdown = (s.slot u).toList.map fun _ => shutdownText := by
  have hkey : ∀ i, (s.server.IsOpen i ∧ (s.conn u).sock = .accepted (s.server.clients i).fd) ↔ s.slot u = some i := by
    intro i
    constructor
    · rintro ⟨-, hu⟩
      exact h.slot_of hu
    · intro hi
      exact ⟨h.slot_isOpen hi, Net.slot_eq_some hi⟩
  have hnews : (s.conn u).news s.server.notifyShutdown =
      (List.finRange maxClients).filterMap fun i => if s.slot u = some i then some shutdownText else none := by
    rw [Conn.news, Server.notifyShutdown, List.filterMap_filterMap]
    refine List.filterMap_congr fun i _ => ?_
    simp only [← hkey i]
    by_cases hopen : s.server.IsOpen i
    · simp [hopen]
    · simp [hopen]
  rw [hnews]
  cases hslot : s.slot u with
  | none => exact List.filterMap_eq_nil_iff.2 fun i _ => if_neg (by simp)
  | some i =>
    simp only [Option.some.injEq]
    exact filterMap_single (List.nodup_finRange _) (List.mem_finRange i) _

/-! ## The steps to come -/

/-- A step that need not bring a visitor on: a signal, or a painting drawn in vain. -/
def Visitor.Vain (v : Visitor) : Act → Prop
  | .signal => True
  | .go p => v.pc = .choose ∧ v.visited p = true
  | _ => False

instance (v : Visitor) : DecidablePred v.Vain
  | .signal => inferInstanceAs (Decidable True)
  | .go _ => inferInstanceAs (Decidable (_ ∧ _))
  | .connect | .recv _ | .timeout | .fail | .kill => inferInstanceAs (Decidable False)

/-- How many steps the visitor takes at most, if it receives nothing more. -/
def Pc.toGo : Pc → ℕ
  | .start | .returned => 1
  | .send _ attempts => 3 + 2 * (2 - attempts)
  | .wait _ attempts => 2 + 2 * (2 - attempts)
  | .choose => 8
  | .closed => 0

/-- A byte that is received may begin another call. -/
def toGo (v : Visitor) (c : Conn) : ℕ := 7 * c.down.flatten.length + v.pc.toGo

section Steps
variable {v : Visitor} {c c' : Conn} {id : ℤ} {a : Act} {e : Effect Visitor}

theorem Visitor.toGo_viewLoop (v : Visitor) : v.viewLoop.pc.toGo ≤ 8 := by
  unfold viewLoop
  split_ifs
  all_goals simp [Pc.toGo]

theorem Visitor.toGo_waitLoop (v : Visitor) : v.waitLoop.pc.toGo ≤ 8 := by
  unfold waitLoop
  split_ifs
  · exact v.toGo_viewLoop
  · simp [Pc.toGo]

theorem Visitor.toGo_afterCall (v : Visitor) (k : Call) (r : Option Text) : (v.afterCall k r).pc.toGo ≤ 8 := by
  cases r with
  | none =>
    rw [afterCall_none]
    simp [Pc.toGo]
  | some r =>
    cases k with
    | exit => simp [Visitor.afterCall, Pc.toGo]
    | leavePainting p => exact v.toGo_viewLoop
    | _ =>
      simp only [Visitor.afterCall]
      split_ifs
      all_goals first | exact v.toGo_viewLoop | exact v.toGo_waitLoop | simp [Pc.toGo]

/-- A stream without its first bytes. -/
theorem flatten_dropBytes (n : ℕ) (ts : List Text) : (dropBytes n ts).flatten = ts.flatten.drop n := by
  induction ts generalizing n with
  | nil => cases n <;> simp [dropBytes]
  | cons t ts ih =>
    cases n with
    | zero => rfl
    | succ n =>
      rw [dropBytes]
      split_ifs with hlt
      · rw [List.flatten_cons, List.flatten_cons, List.drop_append_of_le_length hlt.le]
      · have hnil : t.drop (n + 1) = [] := List.drop_eq_nil_of_le (Nat.le_of_not_lt hlt)
        rw [ih, List.flatten_cons, List.drop_append, hnil, List.nil_append]

/-- What is received is taken off the stream. -/
theorem length_recv {buf : Text} (hc : c.call (.recv buf) = some c') :
    c'.down.flatten.length + 1 ≤ c.down.flatten.length := by
  obtain ⟨⟨hne, -, hprefix⟩, hc⟩ := Option.ite_none_right_eq_some.1 hc
  obtain rfl := Option.some.inj hc
  have hle := (List.isPrefixOf_iff_prefix.1 hprefix).length_le
  have hpos := List.length_pos_iff.2 hne
  rw [flatten_dropBytes, List.length_drop]
  omega

/-- A step of a visitor brings it on, unless it is vain. -/
theorem toGo_runs (he : Visitor.Runs V10.client id v a e) (hne : a ≠ .connect) (hc : c.call a = some c') :
    toGo e.state (c'.push e) + (decide ¬ v.Vain a).toNat ≤ toGo v c := by
  have hdown := (Conn.call_spec hc).2.2
  simp only [toGo, Conn.push]
  cases he with
  | connect => exact absurd rfl hne
  | @recv buf k attempts hpc =>
    have hlen := length_recv hc
    have hgo := v.toGo_afterCall k (if V10.client.refuses (Text.cstr buf) then none else some (Text.cstr buf))
    have hone := Bool.toNat_le (decide ¬ v.Vain (.recv buf))
    have hwait : v.pc.toGo = 2 + 2 * (2 - attempts) := by
      rw [hpc]
      rfl
    simp only [Effect.goOn]
    omega
  | @choose p hpc =>
    rw [hdown (by simp)]
    have hchoose : v.pc.toGo = 8 := by
      rw [hpc]
      rfl
    simp only [Effect.goOn]
    split_ifs with hp
    · have hvain : v.Vain (.go p) := ⟨hpc, hp⟩
      have hgo := v.toGo_viewLoop
      simp only [hvain, not_true, decide_false, Bool.toNat_false]
      omega
    · have hone := Bool.toNat_le (decide ¬ v.Vain (.go p))
      have hsend : Pc.toGo (.send (.view p) 0) = 7 := rfl
      dsimp only
      omega
  | flagged hpc hflags => simp [hdown, Effect.goOn, Visitor.Vain]
  | interrupted hpc hflags => cases hflags
  | @fails k attempts hpc =>
    rw [hdown (by simp)]
    rcases hpc with hpc | hpc
    all_goals
      simp [Effect.goOn, hpc, Pc.toGo, Visitor.Vain]
      omega
  | @ends p hpc =>
    rw [hdown (by simp)]
    simp [hpc, Pc.toGo, Visitor.Vain, V10.client, Visitor.cleanup]
  | killed hpc =>
    rw [hdown (by simp)]
    cases hpc' : v.pc with
    | closed => exact absurd hpc' hpc
    | _ =>
      simp [Visitor.leave, Pc.toGo, Visitor.Vain]
      try omega
  | @again k attempts hpc hlt =>
    have hlt : attempts + 1 < 3 := hlt
    rw [hdown (by simp)]
    simp [Effect.goOn, hpc, Pc.toGo, Visitor.Vain]
    omega
  | send hpc | stopped hpc | givesUp hpc =>
    rw [hdown (by simp)]
    simp [Effect.goOn, hpc, Pc.toGo, Visitor.Vain]
    try omega

/-- **A step of a visitor** when the server has gone. -/
theorem toGo_stepLate (he : Visitor.stepLate id v a = some e) (hc : c.callLate a = some c') :
    toGo e.state (c'.push e) + (decide ¬ v.Vain a).toNat ≤ toGo v c := by
  cases a with
  | connect =>
    obtain ⟨hpc, he⟩ := Option.ite_none_right_eq_some.1 he
    obtain rfl := Option.some.inj he
    obtain rfl := Option.some.inj hc
    simp [toGo, hpc, Pc.toGo, Visitor.leave, Conn.push, Visitor.Vain]
  | _ => exact toGo_runs (Visitor.runs_of_step he) (by simp) hc

/-- A visitor that has not ended goes on by itself. -/
theorem exists_stepLate (id : ℤ) (c : Conn) (hcount : v.Counted) (hpc : v.pc ≠ .closed) :
    ∃ a e c', Visitor.stepLate id v a = some e ∧ c.callLate a = some c' ∧ ¬ v.Vain a ∧ a ≠ .kill := by
  cases hv : v.pc with
  | start => exact ⟨.connect, _, c, if_pos hv, rfl, not_false, nofun⟩
  | send k attempts =>
    have hvain : ¬ v.Vain (.go 0) := by
      rintro ⟨hchoose, -⟩
      rw [hv] at hchoose
      cases hchoose
    cases hs : v.shutdown with
    | true => exact ⟨.go 0, _, c, by simp only [Visitor.stepLate, Visitor.step, hv, hs]; rfl, rfl, hvain, nofun⟩
    | false => exact ⟨.go 0, _, c, by simp only [Visitor.stepLate, Visitor.step, hv, hs]; rfl, rfl, hvain, nofun⟩
  | wait k attempts =>
    -- what is left of the stream is received, or its end
    cases hdown : c.down.flatten with
    | nil => exact ⟨.fail, _, c, by simp only [Visitor.stepLate, Visitor.step, hv]; rfl, rfl, not_false, nofun⟩
    | cons b bytes =>
      have hread : CanRead c.down [b] := ⟨by simp, (by decide : 1 < bufferSize), by simp [hdown]⟩
      exact ⟨.recv [b], _, _, by simp only [Visitor.stepLate, Visitor.step, hv]; rfl, if_pos hread, not_false, nofun⟩
  | choose =>
    obtain ⟨p, hp⟩ := hcount.exists_unvisited hv
    have hvain : ¬ v.Vain (.go p) := by
      rintro ⟨-, hvisited⟩
      rw [hp] at hvisited
      cases hvisited
    exact ⟨.go p, _, c, by simp only [Visitor.stepLate, Visitor.step, hv]; rfl, rfl, hvain, nofun⟩
  | returned =>
    have hvain : ¬ v.Vain (.go 0) := by
      rintro ⟨hchoose, -⟩
      rw [hv] at hchoose
      cases hchoose
    exact ⟨.go 0, _, c, by simp only [Visitor.stepLate, Visitor.step, hv]; rfl, rfl, hvain, nofun⟩
  | closed => exact absurd hv hpc

end Steps

/-! ## The runs -/

section Runs
variable {ι : Type} [DecidableEq ι] [Fintype ι] {ids : ι → ℤ} {s s₁ s' : House ι}

/-- A step that need not bring the visitors on. -/
def House.Vain (s : House ι) : HouseLabel ι → Prop
  | .net (.client u a) => (s.net.proc u).Vain a
  | _ => False

instance (s : House ι) : DecidablePred s.Vain
  | .net (.client _ _) => inferInstanceAs (Decidable (Visitor.Vain _ _))
  | .net (.accept _ _) | .net (.server _ _) | .signal => inferInstanceAs (Decidable False)

/-- The steps that all visitors take at most when the server has gone. -/
def House.toGo (s : House ι) : ℕ := ∑ u, Gallery.toGo (s.net.proc u) (s.net.conn u)

/-- The invariant of the runs. -/
structure House.Sound (s : House ι) : Prop where
  counted : ∀ u, (s.net.proc u).Counted
  wired : s.stopServer = false → s.net.server.Legal ∧ s.net.Wired

theorem House.stepLate {a : HouseLabel ι} (hstop : s.stopServer = true) (hs : House.step ids s a = some s') :
    ∃ u act e c, a = .net (.client u act) ∧ Visitor.stepLate (ids u) (s.net.proc u) act = some e ∧
      (s.net.conn u).callLate act = some c ∧ s' = { s with net := { s.net with
        proc := Function.update s.net.proc u e.state
        conn := Function.update s.net.conn u (c.push e) } } := by
  cases a with
  | signal =>
    rw [House.step, if_pos hstop] at hs
    cases hs
  | net a =>
    cases a with
    | client u act =>
      rw [House.step, if_pos hstop] at hs
      obtain ⟨e, he, hs⟩ := Option.bind_eq_some_iff.1 hs
      obtain ⟨c, hc, rfl⟩ := Option.map_eq_some_iff.1 hs
      exact ⟨u, act, e, c, rfl, he, hc, rfl⟩
    | accept | server =>
      rw [House.step, if_pos hstop] at hs
      · cases hs
      · nofun

theorem House.step_client (hstop : s.stopServer = true) {u : ι} {a : Act} {e : Effect Visitor} {c : Conn}
    (he : Visitor.stepLate (ids u) (s.net.proc u) a = some e) (hc : (s.net.conn u).callLate a = some c) :
    House.step ids s (.net (.client u a)) = some { s with net := { s.net with
      proc := Function.update s.net.proc u e.state
      conn := Function.update s.net.conn u (c.push e) } } := by
  rw [House.step, if_pos hstop, he, Option.bind_some, hc]
  rfl

theorem Visitor.Counted.stepLate {v : Visitor} (h : v.Counted) {id : ℤ} {a : Act} {e : Effect Visitor}
    (he : Visitor.stepLate id v a = some e) : e.state.Counted := by
  cases a with
  | connect =>
    obtain ⟨-, he⟩ := Option.ite_none_right_eq_some.1 he
    obtain rfl := Option.some.inj he
    exact ⟨h.toVisit, trivial⟩
  | _ => exact h.step (Visitor.runs_of_step he)

theorem House.Sound.step (h : s.Sound) {a : HouseLabel ι} (hs : House.step ids s a = some s') : s'.Sound := by
  have hupdate : ∀ {u : ι} {v : Visitor}, v.Counted → ∀ w, (Function.update s.net.proc u v w).Counted := by
    intro u v hv w
    by_cases hw : w = u
    · subst hw; simpa using hv
    · simpa [hw] using h.counted w
  cases hstop : s.stopServer with
  | true =>
    obtain ⟨u, act, e, c, rfl, he, hc, rfl⟩ := House.stepLate hstop hs
    exact ⟨hupdate ((h.counted u).stepLate he), fun hgo => by rw [hstop] at hgo; cases hgo⟩
  | false =>
    obtain ⟨hl, hw⟩ := h.wired hstop
    unfold House.step at hs
    cases a with
    | signal =>
      rw [hstop] at hs
      obtain rfl := Option.some.inj hs
      exact ⟨h.counted, nofun⟩
    | net a =>
      simp only [hstop, Bool.false_eq_true, if_false] at hs
      obtain ⟨n, hn, rfl⟩ := Option.map_eq_some_iff.1 hs
      refine ⟨?_, fun _ => ⟨Net.Legal.step V10.tidy hl hn, hw.step hl hn⟩⟩
      obtain ⟨u, act, e, c, -, he, -, rfl⟩ | ⟨_, _, -, -, -, -, rfl⟩ | ⟨_, _, _, _, _, _, -, -, -, -, -, rfl⟩ :=
        Net.step_cases hl hn
      · exact hupdate ((h.counted u).step (Visitor.runs_of_step he))
      · exact h.counted
      · exact h.counted

theorem V10.house_sound (h : (V10.house ids).Reachable s) : s.Sound := by
  refine System.Inductive.reachable (S := V10.house ids) (J := House.Sound) ⟨?_, fun _ _ _ h hs => h.step hs⟩ h
  rintro _ rfl
  exact ⟨fun _ => Visitor.counted_init, fun _ => ⟨Server.legal_init, Net.wired_init _⟩⟩

/-- A step when the server has gone. -/
theorem House.toGo_step (hstop : s.stopServer = true) {a : HouseLabel ι} (hs : House.step ids s a = some s') :
    s'.stopServer = true ∧ s'.toGo + (decide ¬ s.Vain a).toNat ≤ s.toGo := by
  obtain ⟨u, act, e, c, rfl, he, hc, rfl⟩ := House.stepLate hstop hs
  refine ⟨hstop, ?_⟩
  have hu := toGo_stepLate he hc
  have hsum := sum_change (f := fun w => Gallery.toGo (s.net.proc w) (s.net.conn w))
    (g := fun w => Gallery.toGo (Function.update s.net.proc u e.state w) (Function.update s.net.conn u (c.push e) w))
    u fun w hw => by simp [hw]
  simp only [Function.update_self] at hsum
  have hvain : (decide ¬ s.Vain (.net (.client u act))).toNat = (decide ¬ (s.net.proc u).Vain act).toNat := rfl
  rw [hvain]
  unfold House.toGo
  dsimp only
  omega

/-- **Every visit comes to its end**, without anybody being killed. -/
theorem V10.visits_end {tr : List (House ι × HouseLabel ι)} (h : (V10.house ids).Reachable s)
    (hsignal : (V10.house ids).step s .signal s₁) (hrun : (V10.house ids).Steps s₁ tr s') :
    (∀ u, (s₁.net.conn u).down = (s.net.conn u).down ++ (s.net.slot u).toList.map fun _ => shutdownText) ∧
    tr.countP (fun x => decide ¬ x.1.Vain x.2) ≤ ∑ u, (7 * ((s.net.conn u).down.flatten.length + 15) + 8) ∧
      ((∀ a s'', (V10.house ids).step s' a s'' → s'.Vain a ∨ a.IsKill) →
        ∀ u, (s'.net.proc u).pc = .closed) := by
  have hsound := V10.house_sound h
  have heq : House.step ids s .signal = some s₁ := hsignal
  rw [House.step] at heq
  split_ifs at heq with hstop
  obtain rfl := Option.some.inj heq
  obtain ⟨-, hw⟩ := hsound.wired (Bool.eq_false_iff.2 hstop)
  have hdown : ∀ u, (s.handleSignal.net.conn u).down =
      (s.net.conn u).down ++ (s.net.slot u).toList.map fun _ => shutdownText := by
    intro u
    rw [← hw.news_notifyShutdown u]
    simp only [House.handleSignal, Conn.deliver_eq, Conn.hangUp]
    split <;> rfl
  obtain ⟨hstop', hcount⟩ := hrun.countP_le (J := fun s => s.stopServer = true) House.toGo
    (fun x => decide ¬ x.1.Vain x.2)
    (fun s a s' hJ hs => House.toGo_step hJ (show House.step ids s a = some s' from hs)) rfl
  refine ⟨hdown, ?_, fun hend u => ?_⟩
  · refine (Nat.le_add_right _ _).trans (hcount.trans (Finset.sum_le_sum fun u _ => ?_))
    have hpc : ∀ pc : Pc, pc.toGo ≤ 8 := by
      intro pc
      cases pc <;> simp only [Pc.toGo] <;> omega
    have htext : [shutdownText].flatten.length = 15 := by decide
    have hlen : ((s.net.slot u).toList.map fun _ => shutdownText).flatten.length ≤ 15 := by
      cases s.net.slot u with
      | none => exact Nat.zero_le _
      | some i => exact htext.le
    have := hpc (s.net.proc u).pc
    simp only [Gallery.toGo, hdown, List.flatten_append, List.length_append]
    dsimp only [House.handleSignal]
    omega
  · by_contra hpc
    have hsound' := V10.house_sound ((h.step hsignal).steps hrun)
    obtain ⟨a, e, c, he, hc, hvain, hkill⟩ := exists_stepLate (ids u) (s'.net.conn u) (hsound'.counted u) hpc
    rcases hend _ _ (House.step_client hstop' he hc) with hv | hk
    · exact hvain hv
    · cases a with
      | kill => exact hkill rfl
      | _ => exact hk

/-! ## The end of a visit -/

/-- The visitor 1 goes to the first painting, is told of the end and closes its connection. -/
def goingHome : List (HouseLabel Unit) :=
  [Act.draw 0, .draw 0, .recv shutdownText, .draw 0].map fun a => .net (.client () a)

end Runs

theorem V10.visits_end_told : ∃ (s s₁ s' : House Unit) (tr : List (House Unit × HouseLabel Unit)),
    (s.net.proc ()).pc ≠ .closed ∧ (s'.net.proc ()).pc = .closed ∧
    (∀ u, (s₁.net.conn u).down = (s.net.conn u).down ++ (s.net.slot u).toList.map fun _ => shutdownText) ∧
    tr.countP (fun x => decide ¬ x.1.Vain x.2) ≤ ∑ u, (7 * ((s.net.conn u).down.flatten.length + 15) + 8) ∧
      ((∀ a s'', (V10.house fun _ : Unit => 1).step s' a s'' → s'.Vain a ∨ a.IsKill) →
        ∀ u, (s'.net.proc u).pc = .closed) := by
  obtain ⟨s, -, he, hs⟩ := System.exec_of_any House.init (House.step fun _ : Unit => 1) (entering.map .net)
    (fun s => (s.net.proc ()).pc ≠ .closed ∧ (System.runFn (House.step fun _ : Unit => 1) s
      (.signal :: goingHome)).any fun s' => (s'.net.proc ()).pc = .closed) (by decide +kernel)
  obtain ⟨hpc, hs⟩ := of_decide_eq_true hs
  obtain ⟨s', hrun, hs'⟩ := (Option.any_eq_true _ _).1 hs
  obtain ⟨s₁, hsignal, hrun⟩ := Option.bind_eq_some_iff.1 hrun
  exact ⟨s, s₁, s', _, hpc, of_decide_eq_true hs', V10.visits_end ⟨_, he⟩ hsignal (.runFn hrun)⟩

end Gallery
