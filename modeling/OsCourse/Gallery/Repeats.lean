/-
  Commands that are sent again after a timeout (idz os 3/10): when handling a command twice
  leaves the server as handling it once does.
-/
import OsCourse.Gallery.Dialogue
import OsCourse.Gallery.Service

namespace Gallery

open Transition System

namespace V10

/-- The counters and the painting of the slot are the same. -/
structure SameCounts (s t : Server) (i : Slot) : Prop where
  visitors : s.currentVisitors = t.currentVisitors
  counts : s.paintingCounts = t.paintingCounts
  painting : (s.clients i).currentPainting = (t.clients i).currentPainting

/-- The handler, called twice in a row with the command of a call, leaves the counters and the
    painting of the slot as the first call of the handler does. -/
def SameTwice (s : Server) (i : Slot) (id : CInt) (k : Call) : Prop :=
  ∃ once twice, handleClientMessage s i (.data (k.message id)) = .ok once ∧
    handleClientMessage once.server i (.data (k.message id)) = .ok twice ∧
    SameCounts twice.server once.server i

/-- When it does: the second `ENTER` and the second `VIEW` have to wait, `LEAVE_PAINTING`
    finds the slot at no painting, and a second `EXIT` is always counted. -/
def Repeatable (s : Server) : Call → Prop
  | .enter | .reenter => 24 ≤ s.currentVisitors
  | .view p => 4 ≤ s.paintingCounts p
  | .leavePainting _ => True
  | .exit => False

instance (s : Server) : ∀ k, Decidable (Repeatable s k)
  | .enter | .reenter => inferInstanceAs (Decidable (24 ≤ s.currentVisitors))
  | .view p => inferInstanceAs (Decidable (4 ≤ s.paintingCounts p))
  | .leavePainting _ => inferInstanceAs (Decidable True)
  | .exit => inferInstanceAs (Decidable False)

variable {s : Server} {i : Slot} {id n : ℤ} {k : Call} {x y : Reaction}

/-! ## One command, twice -/

theorem handle_message (hs : s.Legal) (i : Slot) (id : CInt) (k : Call) :
    ∃ x, handleClientMessage s i (.data (k.message id)) = .ok x ∧
      version.Handles s i (.command id (some k.action) k.number) x := by
  obtain ⟨x, hx, hh⟩ := version.react_spec (hs i) (.command id (some k.action) k.number)
  refine ⟨x, ?_, hh⟩
  rw [handleClientMessage, Version.handleClientMessage, decode_message]
  exact hx

theorem sameTwice_iff_handles (hs : s.Legal) (i : Slot) (id : CInt) (k : Call) :
    ∃ x y, version.Handles s i (.command id (some k.action) k.number) x ∧
      version.Handles x.server i (.command id (some k.action) k.number) y ∧
      (SameTwice s i id k ↔ SameCounts y.server x.server i) := by
  obtain ⟨x, hx, hhx⟩ := handle_message hs i id k
  obtain ⟨y, hy, hhy⟩ := handle_message (hhx.legal V10.tidy hs) i id k
  refine ⟨x, y, hhx, hhy, ?_⟩
  constructor
  · rintro ⟨once, twice, honce, htwice, hsame⟩
    obtain rfl := Except.ok.inj (hx.symm.trans honce)
    obtain rfl := Except.ok.inj (hy.symm.trans htwice)
    exact hsame
  · exact fun hsame => ⟨x, y, hx, hy, hsame⟩

theorem sameCounts_enter (hx : version.Handles s i (.command id (some .enter) n) x)
    (hy : version.Handles x.server i (.command id (some .enter) n) y) :
    SameCounts y.server x.server i ↔ 24 ≤ s.currentVisitors := by
  cases hx with
  | enterOk hlt =>
    cases hy with
    | enterOk hlt' =>
      refine iff_of_false (fun hsame => ?_) ?_
      · have hvisitors := hsame.visitors
        simp only [Version.reply] at hvisitors
        omega
      · simp only [Version.reply, maxVisitors] at hlt'
        omega
    | enterWait hge =>
      refine iff_of_true ⟨rfl, rfl, ?_⟩ ?_
      · simp [Version.reply]
      · simp only [Version.reply, maxVisitors] at hge
        omega
  | enterWait hge =>
    cases hy with
    | enterOk hlt => exact absurd hlt hge
    | enterWait hge' =>
      refine iff_of_true ⟨rfl, rfl, ?_⟩ ?_
      · simp [Version.reply]
      · simp only [maxVisitors] at hge
        omega

theorem sameCounts_view {p : Painting} (hx : version.Handles s i (.command id (some .view) p.val) x)
    (hy : version.Handles x.server i (.command id (some .view) p.val) y) :
    SameCounts y.server x.server i ↔ 4 ≤ s.paintingCounts p := by
  have hnone : painting? (p.val : ℤ) ≠ none := by
    rw [painting?_eq_some.2 rfl]
    exact Option.some_ne_none p
  generalize hn : (p.val : ℤ) = n at hx hy hnone
  cases hx with
  | @viewOk _ q hlt =>
    obtain rfl : p = q := Fin.ext (by omega)
    generalize hn' : (p.val : ℤ) = n' at hy
    cases hy with
    | @viewOk _ q hlt' =>
      obtain rfl : p = q := Fin.ext (by omega)
      refine iff_of_false (fun hsame => ?_) ?_
      · have hcounts := congrFun hsame.counts p
        simp only [Version.reply, Function.update_self] at hcounts
        omega
      · simp only [Version.reply, Function.update_self, maxPaintingVisitors] at hlt'
        omega
    | @viewWait _ q hge =>
      obtain rfl : p = q := Fin.ext (by omega)
      refine iff_of_true ⟨rfl, rfl, ?_⟩ ?_
      · simp [Version.reply]
      · simp only [Version.reply, Function.update_self, maxPaintingVisitors] at hge
        omega
    | viewNone hno => exact absurd (hn' ▸ hno) hnone
  | @viewWait _ q hge =>
    obtain rfl : p = q := Fin.ext (by omega)
    generalize hn' : (p.val : ℤ) = n' at hy
    cases hy with
    | @viewOk _ q hlt =>
      obtain rfl : p = q := Fin.ext (by omega)
      exact absurd hlt hge
    | @viewWait _ q hge' =>
      refine iff_of_true ⟨rfl, rfl, ?_⟩ ?_
      · simp [Version.reply]
      · simp only [maxPaintingVisitors] at hge
        omega
    | viewNone hno => exact absurd (hn' ▸ hno) hnone
  | viewNone hno => exact absurd hno hnone

theorem sameCounts_leave (hx : version.Handles s i (.command id (some .leavePainting) n) x)
    (hy : version.Handles x.server i (.command id (some .leavePainting) n) y) :
    SameCounts y.server x.server i := by
  have hnone : (x.server.clients i).currentPainting = -1 := by
    cases hx with
    | left hp => simp [Version.reply]
    | notLeft hp => simpa [Version.silent] using hp
  cases hy with
  | left hp => exact absurd hnone hp
  | notLeft hp => exact ⟨rfl, rfl, by simp [Version.silent]⟩

theorem not_sameCounts_exit (hy : version.Handles x.server i (.command id (some .exit) n) y) :
    ¬ SameCounts y.server x.server i := by
  intro hsame
  have hvisitors := hsame.visitors
  cases hy with
  | exit =>
    simp only [Version.reply, version] at hvisitors
    omega

/-- **When a repeated command does no harm.** -/
theorem sameTwice_iff (h : version.system.Reachable s) (i : Slot) (id : CInt) (k : Call) :
    SameTwice s i id k ↔ Repeatable s k := by
  obtain ⟨x, y, hx, hy, hsame⟩ := sameTwice_iff_handles (Version.legal_reachable V10.tidy h) i id k
  rw [hsame]
  cases k with
  | enter | reenter => exact sameCounts_enter hx hy
  | view p => exact sameCounts_view hx hy
  | leavePainting p => exact iff_of_true (sameCounts_leave hx hy) trivial
  | exit => exact iff_of_false (not_sameCounts_exit hy) not_false

/-- A visitor has connected. -/
def oneConnected : List Event := [.connect 4]

theorem sameTwice_iff_leave : ∃ s : Server, s.IsOpen 0 ∧ SameTwice s 0 .one (.leavePainting 2) := by
  obtain ⟨s, hs, -, hopen⟩ := exec_of_any Server.init version.step oneConnected (fun s => s.IsOpen 0)
    (by decide +kernel)
  exact ⟨s, of_decide_eq_true hopen, (sameTwice_iff (reachable_runFn hs) 0 .one (.leavePainting 2)).2 trivial⟩

/-- A visitor that sends `ENTER` twice is counted twice. -/
theorem not_sameTwice : ¬ ∀ (s : Server) (i : Slot) (id : CInt) (k : Call),
    version.system.Reachable s → s.IsOpen i → SameTwice s i id k := by
  intro hall
  obtain ⟨s, hs, -, hp⟩ := exec_of_any Server.init version.step oneConnected
    (fun s => s.IsOpen 0 ∧ s.currentVisitors = 0) (by decide +kernel)
  obtain ⟨hopen, hzero⟩ := of_decide_eq_true hp
  have hreach := reachable_runFn hs
  obtain ⟨x, y, hx, hy, hsame⟩ :=
    sameTwice_iff_handles (Version.legal_reachable V10.tidy hreach) 0 .one .enter
  have hle := (sameCounts_enter hx hy).1 (hsame.1 (hall s 0 .one .enter hreach hopen))
  omega

end V10

end Gallery
