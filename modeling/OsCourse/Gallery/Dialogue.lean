/-
  The dialogue of a visitor with the server: which reply belongs to which call,
  and what the visitor does with it.
-/
import OsCourse.Gallery.Handler
import OsCourse.Gallery.Visitor

namespace Gallery

/-- The values of type `int`. -/
abbrev CInt := { n : ℤ // IsInt n }

def CInt.one : CInt := ⟨1, by decide⟩

/-! ## Replies -/

/-- Where a visitor is: it has not been admitted, it is inside, it is at a
    painting, or it has left. -/
inductive Stay
  | out
  | hall
  | at (p : Painting)
  | gone
  deriving DecidableEq

namespace Stay

def inside : Stay → Bool
  | hall | .at _ => true
  | _ => false

def viewing (p : Painting) : Stay → Bool
  | .at q => decide (q = p)
  | _ => false

/-- What the server has in `current_painting`. -/
def painting : Stay → ℤ
  | .at p => p.val
  | _ => -1

end Stay

/-- Where a visitor is when it makes a call. -/
def Call.before : Call → Stay
  | enter | reenter => .out
  | view _ => .hall
  | leavePainting p => .at p
  | exit => .hall

/-- The replies to a call of the visitor `id`, and where the visitor is then. -/
inductive Answer (id : ℤ) : Call → Text → Stay → Prop
  | enterOk : Answer id .enter (enterOk id) .hall
  | enterWait : Answer id .enter (enterWait id) .out
  | reenterOk : Answer id .reenter (Gallery.enterOk id) .hall
  | reenterWait : Answer id .reenter (Gallery.enterWait id) .out
  | viewOk (p : Painting) : Answer id (.view p) (viewOk id p.val) (.at p)
  | viewWait (p : Painting) : Answer id (.view p) (viewWait id p.val) .hall
  | left (p : Painting) : Answer id (.leavePainting p) (leftPainting id) .hall
  | exit : Answer id .exit (exitOk id) .gone

/-- A reply is made of one of six words and of numbers. -/
def replyWords : List Text :=
  ["ENTER_OK ".toList, "ENTER_WAIT ".toList, "VIEW_OK ".toList, "VIEW_WAIT ".toList,
    "LEFT_PAINTING ".toList, "EXIT_OK ".toList]

/-- The text is made of numbers and blanks. -/
def IsNums (t : Text) : Prop := ∀ c ∈ t, c = ' ' ∨ ∃ n, c ∈ Text.fmtInt n

theorem isNums_fmtInt (n : ℤ) : IsNums (Text.fmtInt n) := fun _ hc => .inr ⟨n, hc⟩

theorem isNums_two (m n : ℤ) : IsNums (Text.fmtInt m ++ ' ' :: Text.fmtInt n) := by
  intro c hc
  simp only [List.mem_append, List.mem_cons] at hc
  rcases hc with hc | hc | hc
  · exact .inr ⟨m, hc⟩
  · exact .inl hc
  · exact .inr ⟨n, hc⟩

/-- A capital letter of a reply is in its word. -/
theorem mem_word_of_mem {word nums : Text} {c : Char} (hc : c.isUpper = true)
    (hnums : IsNums nums) (h : c ∈ word ++ nums) : c ∈ word := by
  rcases List.mem_append.1 h with h | h
  · exact h
  · rcases hnums c h with rfl | ⟨n, hn⟩
    · exact absurd hc (by decide)
    · rw [Text.isUpper_of_mem_fmtInt hn] at hc; cases hc

theorem Answer.word {id : ℤ} {k : Call} {r : Text} {stay : Stay} (h : Answer id k r stay) :
    ∃ word ∈ replyWords, ∃ nums, r = word ++ nums ∧ IsNums nums := by
  cases h with
  | enterOk | reenterOk => exact ⟨_, by simp [replyWords], _, rfl, isNums_fmtInt id⟩
  | enterWait | reenterWait => exact ⟨_, by simp [replyWords], _, rfl, isNums_fmtInt id⟩
  | viewOk p => exact ⟨_, by simp [replyWords], _, rfl, isNums_two id p.val⟩
  | viewWait p => exact ⟨_, by simp [replyWords], _, rfl, isNums_two id p.val⟩
  | left => exact ⟨_, by simp [replyWords], _, rfl, isNums_fmtInt id⟩
  | exit => exact ⟨_, by simp [replyWords], _, rfl, isNums_fmtInt id⟩

theorem Answer.ne_nil {id : ℤ} {k : Call} {r : Text} {stay : Stay} (h : Answer id k r stay) : r ≠ [] := by
  obtain ⟨word, hw, nums, rfl, -⟩ := h.word
  intro hnil
  rw [(List.append_eq_nil_iff.1 hnil).1] at hw
  revert hw; decide

/-- A reply has no NUL: `recv` puts it into the buffer as one string. -/
theorem Answer.cstr {id : ℤ} {k : Call} {r : Text} {stay : Stay} (h : Answer id k r stay) : Text.cstr r = r := by
  obtain ⟨word, hw, nums, rfl, hnums⟩ := h.word
  have hnul : Text.nul ∉ word ++ nums := by
    intro hmem
    rcases List.mem_append.1 hmem with hmem | hmem
    · have : ∀ word ∈ replyWords, Text.nul ∉ word := by decide
      exact this word hw hmem
    · rcases hnums _ hmem with he | ⟨n, hn⟩
      · revert he; decide
      · exact nul_notMem_fmtInt n hn
  exact List.takeWhile_eq_self_iff.2 fun c hc => bne_iff_ne.2 fun he => hnul (he ▸ hc)

/-- The client takes every reply for a reply, and not for a farewell. -/
def ClientVersion.Gentle (cw : ClientVersion) : Prop := ∀ r, 'H' ∉ r → cw.refuses r = false

theorem V9.gentle : V9.client.Gentle := fun _ _ => rfl

theorem V10.gentle : V10.client.Gentle := fun _ h => Text.strstr_eq_false (c := 'H') (by decide) h

theorem Answer.not_refused {cw : ClientVersion} (hcw : cw.Gentle) {id : ℤ} {k : Call} {r : Text} {stay : Stay}
    (h : Answer id k r stay) : cw.refuses r = false := by
  obtain ⟨word, hw, nums, rfl, hnums⟩ := h.word
  refine hcw _ fun hmem => ?_
  have : ∀ word ∈ replyWords, 'H' ∉ word := by decide
  exact this word hw (mem_word_of_mem (by decide) hnums hmem)

/-! ## What the visitor does next -/

/-- The visitor is about to make a call that is in place, to choose a painting, or
    to end. -/
def Visitor.Ready (v : Visitor) (stay : Stay) : Prop :=
  (∃ k, v.pc = .send k 0 ∧ k.before = stay) ∨ (v.pc = .choose ∧ stay = .hall) ∨
    (v.pc = .returned ∧ stay = .gone)

theorem Visitor.viewLoop_ready {v : Visitor} (hs : v.shutdown = false) : v.viewLoop.Ready .hall := by
  rw [viewLoop, if_neg (by simp [hs])]
  split_ifs
  · exact .inr (.inl ⟨rfl, rfl⟩)
  · exact .inl ⟨.exit, rfl, rfl⟩

theorem Visitor.viewLoop_shutdown (v : Visitor) : v.viewLoop.shutdown = v.shutdown := by
  unfold viewLoop; split_ifs <;> rfl

theorem Visitor.waitLoop_shutdown (v : Visitor) : v.waitLoop.shutdown = v.shutdown := by
  unfold waitLoop; split_ifs
  · exact v.viewLoop_shutdown
  · rfl

theorem Visitor.waitLoop_ready {v : Visitor} (hs : v.shutdown = false) : v.waitLoop.Ready .out := by
  rw [waitLoop, if_neg (by simp [hs])]
  exact .inl ⟨.reenter, rfl, rfl⟩

theorem Visitor.afterCall_shutdown (v : Visitor) (k : Call) (r : Option Text) :
    (v.afterCall k r).shutdown = v.shutdown := by
  cases r with
  | none => cases k <;> rfl
  | some r =>
    cases k with
    | exit => rfl
    | leavePainting p => exact v.viewLoop_shutdown
    | _ =>
      simp only [afterCall]
      split_ifs
      all_goals first | rfl | exact v.viewLoop_shutdown | exact v.waitLoop_shutdown

/-- **The visitor understands the replies**: after a reply to its call it is ready
    for what it may do where it then is. -/
theorem Answer.ready {id : ℤ} {k : Call} {r : Text} {stay : Stay} (h : Answer id k r stay) {v : Visitor}
    (hs : v.shutdown = false) : (v.afterCall k (some r)).Ready stay := by
  cases h with
  | enterOk =>
    have : Text.strstr (Gallery.enterOk id) "ENTER_WAIT".toList = false :=
      Text.strstr_eq_false (c := 'W') (by decide) fun hmem =>
        absurd (mem_word_of_mem (by decide) (isNums_fmtInt id) hmem) (by decide)
    simp only [Visitor.afterCall, this]
    exact Visitor.viewLoop_ready hs
  | enterWait =>
    have : Text.strstr (Gallery.enterWait id) "ENTER_WAIT".toList = true :=
      Text.strstr_append "ENTER_WAIT".toList (' ' :: Text.fmtInt id)
    simp only [Visitor.afterCall, this]
    exact Visitor.waitLoop_ready hs
  | reenterOk =>
    have : Text.strstr (Gallery.enterOk id) "ENTER_OK".toList = true :=
      Text.strstr_append "ENTER_OK".toList (' ' :: Text.fmtInt id)
    simp only [Visitor.afterCall, this]
    exact Visitor.viewLoop_ready hs
  | reenterWait =>
    have : Text.strstr (Gallery.enterWait id) "ENTER_OK".toList = false :=
      Text.strstr_eq_false (c := 'O') (by decide) fun hmem =>
        absurd (mem_word_of_mem (by decide) (isNums_fmtInt id) hmem) (by decide)
    simp only [Visitor.afterCall, this]
    exact Visitor.waitLoop_ready hs
  | viewOk p =>
    have : Text.strstr (Gallery.viewOk id p.val) "VIEW_OK".toList = true :=
      Text.strstr_append "VIEW_OK".toList (' ' :: (Text.fmtInt id ++ ' ' :: Text.fmtInt p.val))
    simp only [Visitor.afterCall, this]
    exact .inl ⟨.leavePainting p, rfl, rfl⟩
  | viewWait p =>
    have : Text.strstr (Gallery.viewWait id p.val) "VIEW_OK".toList = false :=
      Text.strstr_eq_false (c := 'O') (by decide) fun hmem =>
        absurd (mem_word_of_mem (by decide) (isNums_two id p.val) hmem) (by decide)
    simp only [Visitor.afterCall, this]
    exact Visitor.viewLoop_ready hs
  | left p => exact Visitor.viewLoop_ready hs
  | exit => exact .inr (.inr ⟨rfl, rfl⟩)

/-! ## The commands of the calls -/

theorem isInt_number (c : Call) : IsInt c.number := by
  cases c with
  | view p | leavePainting p => have := p.isLt; simp only [Call.number, IsInt]; omega
  | _ => decide

/-- What the server reads when a command of a visitor arrives as it was sent. -/
theorem decode_message (id : CInt) (k : Call) :
    decode (.data (k.message id)) = .ok (.command id (some k.action) k.number) :=
  decode_commandText _ id.2 (isInt_number k)

theorem message_ne_nil (id : ℤ) (k : Call) : k.message id ≠ [] := by
  obtain ⟨c, t, h, -⟩ := Text.fmtInt_cons id
  simp [Call.message, commandText, h]

/-! ## What the log says of a reply -/

theorem viewOk_ne_viewWait (id n : ℤ) : viewWait id n ≠ viewOk id n := by
  intro h
  have hw : 'A' ∈ viewWait id n := List.mem_append_left _ (by decide)
  simp only [h] at hw
  exact absurd (mem_word_of_mem (by decide) (isNums_two id n) hw) (by decide)

end Gallery
