/-
  What the gallery servers do with one message: the cases of the handler as a
  relation, and the reading of the commands.
-/
import OsCourse.Gallery.Server
import Mathlib.Data.List.TakeWhile
import Mathlib.Tactic.SplitIfs

namespace Gallery

/-! ## Reading a command -/

theorem storeInt_of {n : ℤ} (h : IsInt n) : storeInt n = .ok n := if_pos h

theorem Action.name_ne_nil (a : Action) : a.name ≠ [] := by cases a <;> decide

theorem Action.isSpace_name {a : Action} {c : Char} (h : c ∈ a.name) : Text.isSpace c = false := by
  have hall : a.name.all (fun c => !Text.isSpace c) = true := by cases a <;> decide
  simpa using List.all_eq_true.1 hall c h

theorem Action.isDigit_name {a : Action} {c : Char} (h : c ∈ a.name) : c.isDigit = false := by
  have hall : a.name.all (fun c => !c.isDigit) = true := by cases a <;> decide
  simpa using List.all_eq_true.1 hall c h

theorem Action.length_name (a : Action) : a.name.length < 20 := by cases a <;> decide

theorem Action.nul_notMem (a : Action) : Text.nul ∉ a.name := by cases a <;> decide

theorem Action.ofText_name (a : Action) : Action.ofText a.name = some a := by cases a <;> decide

theorem nul_notMem_fmtInt (n : ℤ) : Text.nul ∉ Text.fmtInt n := by
  intro h
  rcases Text.mem_fmtInt h with h | h <;> revert h <;> decide

theorem cstr_commandText (id : ℤ) (a : Action) (n : ℤ) :
    Text.cstr (commandText id a n) = commandText id a n := by
  have hnul : Text.nul ∉ commandText id a n := by
    simp only [commandText, List.mem_append, List.mem_cons]
    rintro (h | h | h | h | h)
    · exact nul_notMem_fmtInt id h
    · revert h; decide
    · exact a.nul_notMem h
    · revert h; decide
    · exact nul_notMem_fmtInt n h
  exact List.takeWhile_eq_self_iff.2 fun c hc => bne_iff_ne.2 fun h => hnul (h ▸ hc)

/-- **A command that arrives in a read of its own is read as it was written.** -/
theorem decode_commandText {id n : ℤ} (a : Action) (hid : IsInt id) (hn : IsInt n) :
    decode (.data (commandText id a n)) = .ok (.command id (some a) n) := by
  have h1 : Text.scanInt (commandText id a n) = some (id, ' ' :: (a.name ++ ' ' :: Text.fmtInt n)) :=
    Text.scanInt_fmtInt id (by simp [Text.NoDigit])
  have h2 : Text.scanWord (' ' :: (a.name ++ ' ' :: Text.fmtInt n)) = some (a.name, ' ' :: Text.fmtInt n) := by
    rw [Text.scanWord_cons_space (by decide)]
    exact Text.scanWord_append a.name_ne_nil (fun _ => Action.isSpace_name) (by simp; decide)
  have h3 : Text.scanInt (' ' :: Text.fmtInt n) = some (n, []) := by
    rw [Text.scanInt_cons_space (by decide)]
    have := Text.scanInt_fmtInt n (by simp [Text.NoDigit] : Text.NoDigit [])
    rwa [List.append_nil] at this
  have h4 := a.length_name
  simp [decode, cstr_commandText, scanCommand, h1, h2, h3, storeInt_of hid, storeInt_of hn,
    Except.bind, Except.map, a.ofText_name, Nat.not_le.2 h4]

theorem decode_data_ne_closed {buf : Text} {inp : Input} (h : decode (.data buf) = .ok inp) :
    inp ≠ .closed := by
  rintro rfl
  simp only [decode] at h
  cases hs : scanCommand (Text.cstr buf) with
  | error f => rw [hs] at h; cases h
  | ok r =>
    rw [hs] at h
    rcases r with _ | r
    · simp only [Except.map, Except.ok.injEq] at h; split_ifs at h
    · simp [Except.map] at h

/-! ## The table of clients -/

namespace Server
variable {s : Server} {i j : Slot} {c : Client}

@[simp] theorem setClient_clients_self : (s.setClient i c).clients i = c := by simp [setClient]

@[simp] theorem setClient_clients_of_ne (h : j ≠ i) : (s.setClient i c).clients j = s.clients j := by
  simp [setClient, h]

@[simp] theorem setClient_currentVisitors : (s.setClient i c).currentVisitors = s.currentVisitors := rfl

@[simp] theorem setClient_paintingCounts : (s.setClient i c).paintingCounts = s.paintingCounts := rfl

theorem freeSlot_eq_some (h : s.freeSlot = some i) :
    (s.clients i).fd = -1 ∧ ∀ j < i, (s.clients j).fd ≠ -1 := by
  obtain ⟨hi, k, hk, rfl, hlt⟩ := List.find?_eq_some_iff_getElem.1 h
  refine ⟨by simpa using hi, fun j hj => ?_⟩
  have := hlt j.val (by simpa [Fin.lt_def] using hj)
  simpa using this

theorem freeSlot_eq_none (h : s.freeSlot = none) (i : Slot) : (s.clients i).fd ≠ -1 := by
  simpa using List.find?_eq_none.1 h i (List.mem_finRange i)

theorem freeSlot_of (hi : (s.clients i).fd = -1) (hlt : ∀ j < i, (s.clients j).fd ≠ -1) :
    s.freeSlot = some i := by
  rcases hf : s.freeSlot with _ | k
  · exact absurd hi (freeSlot_eq_none hf i)
  · obtain ⟨h1, h2⟩ := freeSlot_eq_some hf
    rcases lt_trichotomy k i with hk | hk | hk
    · exact absurd h1 (hlt k hk)
    · rw [hk]
    · exact absurd hi (h2 i hk)

/-- What `accept` does with the new socket. -/
theorem accept_cases (s : Server) (fd : ℤ) :
    (∃ i, s.freeSlot = some i ∧ (s.clients i).fd = -1 ∧
      s.accept fd = s.setClient i { s.clients i with fd := fd }) ∨
    ((∀ i, s.IsOpen i) ∧ s.accept fd = s) := by
  unfold accept
  cases h : s.freeSlot with
  | some i => exact .inl ⟨i, rfl, (freeSlot_eq_some h).1, rfl⟩
  | none => exact .inr ⟨freeSlot_eq_none h, rfl⟩

@[simp] theorem accept_currentVisitors (fd : ℤ) : (s.accept fd).currentVisitors = s.currentVisitors := by
  rcases s.accept_cases fd with ⟨i, -, -, h⟩ | ⟨-, h⟩ <;> simp [h]

@[simp] theorem accept_paintingCounts (fd : ℤ) : (s.accept fd).paintingCounts = s.paintingCounts := by
  rcases s.accept_cases fd with ⟨i, -, -, h⟩ | ⟨-, h⟩ <;> simp [h]

end Server

/-! ## The painting in front of a client -/

theorem painting?_eq_some {n : ℤ} {p : Painting} : painting? n = some p ↔ n = p.val := by
  unfold painting?
  constructor
  · intro h
    split at h
    · obtain rfl := Option.some.inj h; simp; omega
    · cases h
  · rintro rfl
    have := p.isLt
    rw [dif_pos ⟨by omega, by omega⟩]
    congr 1

/-- `current_painting` is no painting or one of the five. -/
def Client.Legal (c : Client) : Prop := c.currentPainting = -1 ∨ ∃ p : Painting, c.currentPainting = p.val

/-- All slots have a legal `current_painting`. -/
def Server.Legal (s : Server) : Prop := ∀ i, (s.clients i).Legal

theorem Server.legal_init : Server.init.Legal := fun _ => .inl rfl

theorem Server.Legal.setClient {s : Server} {i : Slot} {c : Client} (h : s.Legal) (hc : c.Legal) :
    (s.setClient i c).Legal := by
  intro j
  by_cases hj : j = i
  · subst hj; simpa using hc
  · simpa [hj] using h j

theorem Server.Legal.accept {s : Server} (h : s.Legal) (fd : ℤ) : (s.accept fd).Legal := by
  rcases s.accept_cases fd with ⟨i, -, -, he⟩ | ⟨-, he⟩
  · rw [he]; exact h.setClient (h i)
  · rwa [he]

namespace Version
variable {w : Version} {s : Server} {i : Slot} {r : Reaction}

/-- `painting_counts` without the client that is at painting `n`. -/
def released (w : Version) (counts : Painting → ℤ) (n : ℤ) : Painting → ℤ :=
  fun p => if n = p.val then w.dec (counts p) else counts p

@[simp] theorem released_none (w : Version) (counts : Painting → ℤ) : w.released counts (-1) = counts := by
  funext p; unfold released; rw [if_neg]; omega

theorem releasePainting_eq (h : (s.clients i).Legal) :
    w.releasePainting s i =
      .ok { s with paintingCounts := w.released s.paintingCounts (s.clients i).currentPainting } := by
  unfold releasePainting
  rcases h with h | ⟨p, h⟩
  · simp [h]
  · have hp : painting? (s.clients i).currentPainting = some p := painting?_eq_some.2 h
    rw [if_neg (by omega), hp, h]
    refine congrArg (fun counts => Except.ok { s with paintingCounts := counts }) (funext fun q => ?_)
    by_cases hq : q = p
    · subst hq; simp [released]
    · have : (p : ℤ) ≠ q := fun he => hq (Fin.ext (by omega))
      simp [released, hq, this]

/-! ## The cases of the handler -/

/-- The cases of the handler, with what each leaves behind. -/
inductive Handles (w : Version) (s : Server) (i : Slot) : Input → Reaction → Prop
  | closed {s' : Server} (hs : s' = ⟨Function.update s.clients i { s.clients i with fd := -1 },
        if w.counted (s.clients i) then w.dec s.currentVisitors else s.currentVisitors,
        w.released s.paintingCounts (s.clients i).currentPainting⟩) :
      Handles w s i .closed ⟨s', w.broadcastStatus s', []⟩
  | monitor {s' : Server} (hs : s' = s.setClient i { s.clients i with isMonitor := true }) :
      Handles w s i .monitor ⟨s', w.broadcastStatus s', []⟩
  | ignored : Handles w s i .ignored (silent s)
  | enterOk {id n : ℤ} (hlt : s.currentVisitors < maxVisitors) :
      Handles w s i (.command id (some .enter) n)
        (w.reply ⟨Function.update s.clients i { s.clients i with visitorId := id },
          s.currentVisitors + 1, s.paintingCounts⟩ i (enterOk id))
  | enterWait {id n : ℤ} (hge : ¬ s.currentVisitors < maxVisitors) :
      Handles w s i (.command id (some .enter) n)
        (w.reply (s.setClient i { s.clients i with visitorId := id }) i (enterWait id))
  | viewOk {id : ℤ} {p : Painting} (hlt : s.paintingCounts p < maxPaintingVisitors) :
      Handles w s i (.command id (some .view) p.val)
        (w.reply ⟨Function.update s.clients i { s.clients i with visitorId := id, currentPainting := p.val },
          s.currentVisitors, Function.update s.paintingCounts p (s.paintingCounts p + 1)⟩ i
          (viewOk id p.val))
  | viewWait {id : ℤ} {p : Painting} (hge : ¬ s.paintingCounts p < maxPaintingVisitors) :
      Handles w s i (.command id (some .view) p.val)
        (w.reply (s.setClient i { s.clients i with visitorId := id }) i (viewWait id p.val))
  | viewNone {id n : ℤ} (hn : painting? n = none) :
      Handles w s i (.command id (some .view) n)
        (silent (s.setClient i { s.clients i with visitorId := id }))
  | left {id n : ℤ} (hp : (s.clients i).currentPainting ≠ -1) :
      Handles w s i (.command id (some .leavePainting) n)
        (w.reply ⟨Function.update s.clients i { s.clients i with visitorId := id, currentPainting := -1 },
          s.currentVisitors, w.released s.paintingCounts (s.clients i).currentPainting⟩ i
          (leftPainting id))
  | notLeft {id n : ℤ} (hp : (s.clients i).currentPainting = -1) :
      Handles w s i (.command id (some .leavePainting) n)
        (silent (s.setClient i { s.clients i with visitorId := id }))
  | exit {id n : ℤ} :
      Handles w s i (.command id (some .exit) n)
        (w.reply ⟨Function.update s.clients i { s.clients i with
            visitorId := id, currentPainting := w.painting (s.clients i).currentPainting, sentExit := true },
          w.dec s.currentVisitors, w.released s.paintingCounts (s.clients i).currentPainting⟩ i
          (exitOk id))
  | unknown {id n : ℤ} :
      Handles w s i (.command id none n)
        (silent (s.setClient i { s.clients i with visitorId := id }))

/-- **The handler, case by case.**  With a legal `current_painting` the handler
    runs without fault, and its result is that of one of the cases. -/
theorem react_spec (w : Version) (h : (s.clients i).Legal) (inp : Input) :
    ∃ r, w.react s i inp = .ok r ∧ w.Handles s i inp r := by
  have hset : ∀ id : ℤ, ((s.setClient i { s.clients i with visitorId := id }).clients i).Legal := by
    intro id; simpa [Client.Legal] using h
  cases inp with
  | closed =>
    refine ⟨_, by rw [react, releasePainting_eq h]; rfl, ?_⟩
    refine .closed ?_
    cases w.counted (s.clients i) <;> simp [Server.setClient]
  | monitor => exact ⟨_, rfl, .monitor rfl⟩
  | ignored => exact ⟨_, rfl, .ignored⟩
  | command id action n =>
    rcases action with _ | a
    · exact ⟨_, rfl, .unknown⟩
    cases a with
    | enter =>
      refine ⟨_, rfl, ?_⟩
      split_ifs with hlt
      · exact .enterOk hlt
      · exact .enterWait hlt
    | view =>
      refine ⟨_, rfl, ?_⟩
      cases hp : painting? n with
      | none => exact .viewNone hp
      | some p =>
        obtain rfl := painting?_eq_some.1 hp
        dsimp only
        split_ifs with hlt
        · simpa [Server.setClient] using @Handles.viewOk w s i id _ hlt
        · exact .viewWait hlt
    | leavePainting =>
      by_cases hp : (s.clients i).currentPainting = -1
      · exact ⟨_, by simp [react, execute, hp], .notLeft hp⟩
      · refine ⟨_, by simp [react, execute, hp, releasePainting_eq (hset id)]; rfl, ?_⟩
        simpa [Server.setClient] using @Handles.left w s i id n hp
    | exit =>
      refine ⟨_, by simp [react, execute, releasePainting_eq (hset id)]; rfl, ?_⟩
      simpa [Server.setClient] using @Handles.exit w s i id n

end Version

end Gallery
