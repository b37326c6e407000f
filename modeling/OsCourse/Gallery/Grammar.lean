/-
  The commands of a visit (idz os 3/9): the language of the commands that `visit_gallery`
  issues, whatever the replies and the choices of the paintings are.
-/
import OsCourse.Lib.Transition
import OsCourse.Gallery.Visitor
import Mathlib.Computability.Language
import Mathlib.Data.Fintype.Card
import Mathlib.Data.List.Chain
import Mathlib.Order.CompletePartialOrder

namespace Gallery

open Transition Computability

/-! ## Words of commands -/

/-- A command, without the number of its visitor. -/
abbrev Letter := Action × ℤ

def Call.letter (c : Call) : Letter := (c.action, c.number)

/-- The language of one command. -/
def Call.word (c : Call) : Language Letter := {[c.letter]}

/-- `ENTER+` -/
def enterWords : Language Letter := Call.enter.word * Call.enter.word∗

/-- `VIEW p | VIEW p LEAVE_PAINTING p` -/
def viewWords : Language Letter :=
  ⨆ p : Painting, (Call.view p).word + (Call.view p).word * (Call.leavePainting p).word

/-- `ENTER+ (VIEW p | VIEW p LEAVE_PAINTING p)*` -/
def tourWords : Language Letter := enterWords * viewWords∗

/-- `ENTER+ (VIEW p | VIEW p LEAVE_PAINTING p)* EXIT?` -/
def visitWords : Language Letter := tourWords * (1 + Call.exit.word)

/-! ## The commands on record -/

/-- What is issued at the head of the loop over the paintings. -/
def Call.Moves : Call → Prop
  | .view _ | .exit => True
  | _ => False

/-- A command that `visit_gallery` has issued, and the reply to it if one has come. -/
structure Issued where
  call : Call
  reply : Option Text

namespace Issued

/-- The reply contains `VIEW_OK`. -/
def ViewOk (e : Issued) : Bool := e.reply.any fun r => Text.strstr r "VIEW_OK".toList

/-- Painting `p` has received `VIEW_OK`. -/
def Viewed (e : Issued) (p : Painting) : Bool := e.call = .view p && e.ViewOk

/-- `c` may be issued after the command. -/
def Next (e : Issued) (c : Call) : Prop :=
  match e.call with
  | .enter | .reenter => c = .reenter ∨ c.Moves
  | .view p => if e.ViewOk then c = .leavePainting p else c.Moves
  | .leavePainting _ => c.Moves
  | .exit => False

end Issued

/-- A visitor, and what `visit_gallery` has issued, the last command first. -/
structure Visit where
  visitor : Visitor
  log : List Issued

namespace Visit

def init : Visit := { visitor := .init, log := [] }

/-- The reply to the command that was issued last. -/
def answer (r : Text) : List Issued → List Issued
  | [] => []
  | e :: log => { e with reply := some r } :: log

/-- What an act of a visitor that stands at `pc` puts on record: a command is issued when
    `send_and_wait_response` is at its first `send`. -/
def record (log : List Issued) : Pc → Act → List Issued
  | .send c 0, .go _ | .send c 0, .fail => { call := c, reply := none } :: log
  | .wait _ _, .recv buf => answer (Text.cstr buf) log
  | _, _ => log

def step (id : ℤ) (s : Visit) (a : Act) : Option Visit :=
  (Visitor.step V9.client id s.visitor a).map fun e =>
    { visitor := e.state, log := record s.log s.visitor.pc a }

/-- The visits of the visitor `id`. -/
def system (id : ℤ) : System Visit Act := .ofFn init (step id)

/-- The commands that `visit_gallery` has issued, in their order. -/
def commands (s : Visit) : List Issued := s.log.reverse

/-- What is true of the commands of a visit. -/
structure Obeys (s : Visit) : Prop where
  /-- they form a word of the grammar -/
  word : s.commands ≠ [] → (s.commands.map fun e => e.call.letter) ∈ visitWords
  /-- `visit_gallery` does not return before the first one -/
  returned : s.visitor.pc = .returned → s.commands ≠ []
  /-- `LEAVE_PAINTING p` follows `VIEW p` exactly if `VIEW_OK` has come -/
  leave : ∀ xs e ys p, s.commands = xs ++ e :: ys → e.call = .view p → ys ≠ [] ∨ s.visitor.pc = .returned →
    (ys.head?.map Issued.call = some (.leavePainting p) ↔ e.ViewOk = true)
  /-- no painting is viewed again -/
  once : ∀ xs e ys p, s.commands = xs ++ e :: ys → e.Viewed p = true → ∀ e' ∈ ys, e'.call ≠ .view p
  /-- before `EXIT` each painting has been viewed, once -/
  exit : (∃ e ∈ s.commands, e.call = .exit) → ∀ p, s.commands.countP (·.Viewed p) = 1

end Visit

variable {v : Visitor} {log : List Issued} {e : Issued} {c : Call} {p : Painting} {r : Text}

/-! ## The words that the record forms -/

theorem append_mem_tourWords {u x : List Letter} (hu : u ∈ tourWords) (hx : x ∈ viewWords) :
    u ++ x ∈ tourWords := by
  have hstar : viewWords∗ * viewWords ≤ viewWords∗ := kstar_mul_le_kstar
  have hle : tourWords * viewWords ≤ tourWords := by
    rw [tourWords, mul_assoc]
    exact mul_le_mul_right hstar enterWords
  exact hle (Language.append_mem_mul hu hx)

theorem enterWords_le : enterWords ≤ tourWords := by
  intro u hu
  rw [← List.append_nil u]
  exact Language.append_mem_mul hu (Language.nil_mem_kstar _)

theorem mem_viewWords_view (p : Painting) : [(Call.view p).letter] ∈ viewWords :=
  Language.mem_iSup.2 ⟨p, .inl rfl⟩

theorem mem_viewWords_leave (p : Painting) :
    [(Call.view p).letter, (Call.leavePainting p).letter] ∈ viewWords :=
  Language.mem_iSup.2 ⟨p, .inr (Language.append_mem_mul (a := [_]) (b := [_]) rfl rfl)⟩

/-- What the word is like when `c` stands at its end. -/
def EndsIn (w : List Letter) : Call → Prop
  | .enter | .reenter => w ∈ enterWords
  | .view p => ∃ u ∈ tourWords, w = u ++ [(Call.view p).letter]
  | .leavePainting _ => w ∈ tourWords
  | .exit => ∃ u ∈ tourWords, w = u ++ [Call.exit.letter]

theorem EndsIn.mem_visitWords {w : List Letter} (h : EndsIn w c) : w ∈ visitWords := by
  have hquiet : ∀ u ∈ tourWords, u ∈ visitWords := by
    intro u hu
    rw [← List.append_nil u]
    exact Language.append_mem_mul hu (.inl rfl)
  cases c with
  | enter | reenter => exact hquiet w (enterWords_le h)
  | view p =>
    obtain ⟨u, hu, rfl⟩ := h
    exact hquiet _ (append_mem_tourWords hu (mem_viewWords_view p))
  | leavePainting p => exact hquiet w h
  | exit =>
    obtain ⟨u, hu, rfl⟩ := h
    exact Language.append_mem_mul hu (.inr rfl)

/-- One more command. -/
theorem EndsIn.next {w : List Letter} (h : EndsIn w e.call) (hn : e.Next c) : EndsIn (w ++ [c.letter]) c := by
  have hmoves : w ∈ tourWords → c.Moves → EndsIn (w ++ [c.letter]) c := by
    intro hw hc
    cases c with
    | view p => exact ⟨w, hw, rfl⟩
    | exit => exact ⟨w, hw, rfl⟩
    | _ => exact hc.elim
  obtain ⟨d, reply⟩ := e
  cases d with
  | enter | reenter =>
    rcases hn with rfl | hn
    · have hle : enterWords * Call.enter.word ≤ enterWords := by
        rw [enterWords, mul_assoc]
        exact mul_le_mul_right kstar_mul_le_kstar _
      exact hle (Language.append_mem_mul h rfl)
    · exact hmoves (enterWords_le h) hn
  | view p =>
    obtain ⟨u, hu, rfl⟩ := h
    simp only [Issued.Next] at hn
    split_ifs at hn
    · subst hn
      rw [EndsIn, List.append_assoc]
      exact append_mem_tourWords hu (mem_viewWords_leave p)
    · exact hmoves (append_mem_tourWords hu (mem_viewWords_view p)) hn
  | leavePainting p => exact hmoves h hn
  | exit => exact hn.elim

/-! ## The variables of a visit and its record -/

/-- What the record, which has the last command first, says about the variables of
    `visit_gallery`. -/
structure Keeps (v : Visitor) (log : List Issued) : Prop where
  chain : log.IsChain fun e' e => e.Next e'.call
  once : log.Pairwise fun e' e => ∀ p, e.Viewed p = true → e'.call ≠ .view p
  first : ∀ e ∈ log.getLast?, e.call = .enter
  visited : ∀ p, v.visited p = true ↔ ∃ e ∈ log, e.Viewed p = true
  left : v.paintingsToVisit = (Finset.univ.filter fun p => v.visited p = false).card
  exit : (∃ e ∈ log, e.call = .exit) → ∀ p, v.visited p = true
  shutdown : v.shutdown = false

/-- `c` may be the next command. -/
structure Fits (v : Visitor) (log : List Issued) (c : Call) : Prop where
  first : log = [] → c = .enter
  next : ∀ e ∈ log.head?, e.Next c
  view : ∀ p, c = .view p → v.visited p = false
  exit : c = .exit → v.paintingsToVisit = 0

/-- The command that was issued last is `c`, and it has had no reply. -/
def Awaits (log : List Issued) (c : Call) : Prop := ∃ old, log = ⟨c, none⟩ :: old

/-- The record when the visitor is at the head of the loop over the paintings. -/
def Moving (log : List Issued) : Prop := log ≠ [] ∧ ∀ e ∈ log.head?, ∀ c : Call, c.Moves → e.Next c

/-- The record when `visit_gallery` has returned. -/
def Ended (log : List Issued) : Prop := log ≠ [] ∧ ∀ e ∈ log.head?, ∀ p, e.Viewed p = false

/-- What the last command is when the visitor stands where it stands. -/
def Stands (v : Visitor) (log : List Issued) : Prop :=
  match v.pc with
  | .start => log = []
  | .send c 0 => Fits v log c
  | .send c (_ + 1) | .wait c _ => Awaits log c
  | .choose => Moving log
  | .returned => Ended log
  | .closed => True

theorem Issued.viewed_iff : e.Viewed p = true ↔ e.call = .view p ∧ e.ViewOk = true := by
  simp [Issued.Viewed]

theorem Issued.next_of_viewOk (he : e.call = .view p) (hok : e.ViewOk = true) :
    e.Next c ↔ c = .leavePainting p := by
  simp [Issued.Next, he, hok]

theorem Issued.next_of_not_viewOk (he : e.call = .view p) (hok : e.ViewOk = false) :
    e.Next c ↔ c.Moves := by
  simp [Issued.Next, he, hok]

theorem Issued.viewed_mk_none : (⟨c, none⟩ : Issued).Viewed p = false := by
  simp [Issued.Viewed, Issued.ViewOk]

namespace Keeps

theorem init : Keeps .init [] where
  chain := .nil
  once := .nil
  first := by simp
  visited p := by simp [Visitor.init]
  left := by simp [Visitor.init, numPaintings]
  exit := by simp
  shutdown := rfl

theorem setPc (h : Keeps v log) (pc : Pc) : Keeps { v with pc := pc } log :=
  ⟨h.chain, h.once, h.first, h.visited, h.left, h.exit, h.shutdown⟩

/-- A command that is issued has no reply yet. -/
theorem issue (h : Keeps v log) (hc : Fits v log c) : Keeps v (⟨c, none⟩ :: log) where
  chain := List.isChain_cons.2 ⟨hc.next, h.chain⟩
  once := by
    refine List.pairwise_cons.2 ⟨fun e he p hp hcall => ?_, h.once⟩
    have hnot := hc.view p hcall
    rw [(h.visited p).2 ⟨e, he, hp⟩] at hnot
    cases hnot
  first := by
    intro e he
    cases log with
    | nil =>
      rw [List.getLast?_singleton] at he
      obtain rfl := Option.some.inj he
      exact hc.first rfl
    | cons d log => exact h.first e (by simpa using he)
  visited p := by
    rw [h.visited p]
    constructor
    · rintro ⟨e, he, hp⟩
      exact ⟨e, List.mem_cons_of_mem _ he, hp⟩
    · rintro ⟨e, he, hp⟩
      rcases List.mem_cons.1 he with rfl | he
      · rw [Issued.viewed_mk_none] at hp
        cases hp
      · exact ⟨e, he, hp⟩
  left := h.left
  exit := by
    rintro ⟨e, he, hexit⟩ p
    rcases List.mem_cons.1 he with rfl | he
    · have hzero := h.left
      rw [hc.exit hexit] at hzero
      have hall := Finset.filter_eq_empty_iff.1 (Finset.card_eq_zero.1 hzero.symm) (Finset.mem_univ p)
      simpa using hall
    · exact h.exit ⟨e, he, hexit⟩ p
  shutdown := h.shutdown

theorem not_visited (h : Keeps v (⟨.view p, none⟩ :: log)) : v.visited p = false := by
  rw [← Bool.not_eq_true, h.visited p]
  rintro ⟨e, he, hp⟩
  rcases List.mem_cons.1 he with rfl | he
  · rw [Issued.viewed_mk_none] at hp
    cases hp
  · exact (List.pairwise_cons.1 h.once).1 e he p hp rfl

/-- The order of the commands does not depend on the reply to the last of them. -/
theorem noted (h : Keeps v (⟨c, none⟩ :: log)) (r : Option Text) :
    (⟨c, r⟩ :: log : List Issued).IsChain (fun e' e => e.Next e'.call) ∧
    (⟨c, r⟩ :: log : List Issued).Pairwise (fun e' e => ∀ p, e.Viewed p = true → e'.call ≠ .view p) ∧
    ∀ e ∈ (⟨c, r⟩ :: log : List Issued).getLast?, e.call = .enter := by
  refine ⟨List.isChain_cons.2 (List.isChain_cons.1 h.chain), List.pairwise_cons.2 (List.pairwise_cons.1 h.once),
    fun e he => ?_⟩
  cases log with
  | nil =>
    have hfirst := h.first ⟨c, none⟩ (by simp)
    rw [List.getLast?_singleton] at he
    obtain rfl := Option.some.inj he
    exact hfirst
  | cons d log => exact h.first e (by simpa using he)

/-- A reply that is no `VIEW_OK`. -/
theorem answer (h : Keeps v (⟨c, none⟩ :: log)) (hr : ∀ p, (⟨c, some r⟩ : Issued).Viewed p = false) :
    Keeps v (⟨c, some r⟩ :: log) := by
  obtain ⟨hchain, honce, hfirst⟩ := h.noted (some r)
  refine ⟨hchain, honce, hfirst, fun p => ?_, h.left, fun hexit => h.exit ?_, h.shutdown⟩
  · rw [h.visited p]
    simp [hr, Issued.viewed_mk_none]
  · simpa using hexit

/-- `VIEW_OK` -/
theorem viewOk (h : Keeps v (⟨.view p, none⟩ :: log)) (hr : (⟨.view p, some r⟩ : Issued).ViewOk = true) (pc : Pc) :
    Keeps { v with
      visited := Function.update v.visited p true
      paintingsToVisit := v.paintingsToVisit - 1
      pc := pc } (⟨.view p, some r⟩ :: log) := by
  obtain ⟨hchain, honce, hfirst⟩ := h.noted (some r)
  have hmono : ∀ q, v.visited q = true → Function.update v.visited p true q = true := by
    intro q hq
    by_cases hqp : q = p
    · simp [hqp]
    · simpa [hqp] using hq
  refine ⟨hchain, honce, hfirst, fun q => ?_, ?_, fun hexit q => hmono q (h.exit ?_ q), h.shutdown⟩
  · by_cases hqp : q = p
    · subst hqp
      refine iff_of_true (by simp) ⟨_, List.mem_cons_self, Issued.viewed_iff.2 ⟨rfl, hr⟩⟩
    · have hother : (⟨.view p, some r⟩ : Issued).Viewed q = false := by
        simp [Issued.Viewed, Ne.symm hqp]
      dsimp only
      rw [Function.update_of_ne hqp, h.visited q]
      simp [hother, Issued.viewed_mk_none]
  · have hmem : p ∈ Finset.univ.filter fun q => v.visited q = false := by simpa using h.not_visited
    have herase : (Finset.univ.filter fun q => Function.update v.visited p true q = false) =
        (Finset.univ.filter fun q => v.visited q = false).erase p := by
      ext q
      by_cases hqp : q = p <;> simp [hqp]
    rw [herase, Finset.card_erase_of_mem hmem, ← h.left]
  · simpa using hexit

end Keeps

/-! ## The steps of a visit -/

namespace Visit
variable {id : ℤ} {s s' : Visit} {a : Act}

/-- The record says where the visitor stands. -/
structure OnRecord (s : Visit) : Prop where
  keeps : Keeps s.visitor s.log
  stands : Stands s.visitor s.log

theorem OnRecord.viewLoop (h : Keeps v log) (hm : Moving log) : OnRecord ⟨v.viewLoop, log⟩ := by
  rw [Visitor.viewLoop, if_neg (by rw [h.shutdown]; exact Bool.false_ne_true)]
  split_ifs with hleft
  · exact ⟨h.setPc _, hm⟩
  · refine ⟨h.setPc _, ?_⟩
    exact ⟨fun hnil => absurd hnil hm.1, fun e he => hm.2 e he .exit trivial, fun p hp => (by cases hp),
      fun _ => Nat.eq_zero_of_not_pos hleft⟩

theorem OnRecord.waitLoop (h : Keeps v log) (hne : log ≠ []) (hn : ∀ e ∈ log.head?, e.Next .reenter) :
    OnRecord ⟨v.waitLoop, log⟩ := by
  rw [Visitor.waitLoop, if_neg (by rw [h.shutdown]; exact Bool.false_ne_true)]
  exact ⟨h.setPc _, ⟨fun hnil => absurd hnil hne, hn, fun p hp => (by cases hp), fun hp => (by cases hp)⟩⟩

/-- A call has failed. -/
theorem OnRecord.failed (h : Keeps v log) (ha : Awaits log c) : OnRecord ⟨v.afterCall c none, log⟩ := by
  refine ⟨h.setPc _, ?_⟩
  obtain ⟨old, rfl⟩ := ha
  refine ⟨List.cons_ne_nil _ _, fun e he p => ?_⟩
  obtain rfl := Option.some.inj he
  exact Issued.viewed_mk_none

/-- A reply has come. -/
theorem OnRecord.replied (h : Keeps v log) (ha : Awaits log c) (r : Text) :
    OnRecord ⟨v.afterCall c (some r), answer r log⟩ := by
  obtain ⟨old, rfl⟩ := ha
  have hne : (⟨c, some r⟩ :: old : List Issued) ≠ [] := List.cons_ne_nil _ _
  have hhead : ∀ {d}, (⟨c, some r⟩ : Issued).Next d → ∀ e ∈ (⟨c, some r⟩ :: old : List Issued).head?, e.Next d := by
    intro d hd e he
    obtain rfl := Option.some.inj he
    exact hd
  cases c with
  | enter =>
    have hk := h.answer (r := r) fun p => by simp [Issued.Viewed]
    simp only [Visitor.afterCall]
    split_ifs
    · exact .waitLoop hk hne (hhead (.inl rfl))
    · exact .viewLoop hk ⟨hne, fun e he d hd => hhead (.inr hd) e he⟩
  | reenter =>
    have hk := h.answer (r := r) fun p => by simp [Issued.Viewed]
    simp only [Visitor.afterCall]
    split_ifs
    · exact .viewLoop hk ⟨hne, fun e he d hd => hhead (.inr hd) e he⟩
    · exact .waitLoop hk hne (hhead (.inl rfl))
  | view p =>
    simp only [Visitor.afterCall]
    split_ifs with hview
    · have hok : (⟨.view p, some r⟩ : Issued).ViewOk = true := hview
      refine ⟨h.viewOk hok _,
        ⟨fun hnil => absurd hnil hne, hhead ?_, fun q hq => (by cases hq), fun hq => (by cases hq)⟩⟩
      exact (Issued.next_of_viewOk rfl hok).2 rfl
    · have hno : (⟨.view p, some r⟩ : Issued).ViewOk = false := Bool.not_eq_true _ ▸ hview
      have hk := h.answer (r := r) fun q => by simp [Issued.Viewed, hno]
      exact .viewLoop hk ⟨hne, fun e he d hd => hhead ((Issued.next_of_not_viewOk rfl hno).2 hd) e he⟩
  | leavePainting p =>
    have hk := h.answer (r := r) fun q => by simp [Issued.Viewed]
    exact .viewLoop hk ⟨hne, fun e he d hd => hhead hd e he⟩
  | exit =>
    have hk := h.answer (r := r) fun p => by simp [Issued.Viewed]
    refine ⟨hk.setPc _, hne, fun e he p => ?_⟩
    obtain rfl := Option.some.inj he
    simp [Issued.Viewed]

/-- **The step lemma.** -/
theorem OnRecord.step (h : s.OnRecord) (hs : s.step id a = some s') : s'.OnRecord := by
  obtain ⟨⟨pc, visited, left, shutdown⟩, log⟩ := s
  obtain ⟨hk, hst⟩ := h
  obtain ⟨e, he, rfl⟩ := Option.map_eq_some_iff.1 hs
  obtain rfl : shutdown = false := hk.shutdown
  cases pc with
  | start =>
    cases a with
    | connect =>
      obtain rfl := Option.some.inj he
      refine ⟨hk.setPc _, ⟨fun _ => rfl, fun e he => ?_, fun p hp => (by cases hp), fun hp => (by cases hp)⟩⟩
      rw [show log = [] from hst] at he
      cases he
    | signal | kill => obtain rfl := Option.some.inj he; exact ⟨hk.setPc _, trivial⟩
    | _ => cases he
  | send c attempts =>
    cases a with
    | go p =>
      obtain rfl := Option.some.inj he
      cases attempts with
      | zero => exact ⟨(hk.issue hst).setPc _, log, rfl⟩
      | succ n => exact ⟨hk.setPc _, hst⟩
    | fail =>
      obtain rfl := Option.some.inj he
      cases attempts with
      | zero => exact .failed (hk.issue hst) ⟨log, rfl⟩
      | succ n => exact .failed hk hst
    | signal | kill =>
      obtain rfl := Option.some.inj he
      cases attempts <;> exact ⟨hk.setPc _, trivial⟩
    | _ => cases he
  | wait c attempts =>
    cases a with
    | recv buf => obtain rfl := Option.some.inj he; exact .replied hk hst _
    | timeout =>
      obtain rfl := Option.some.inj he
      dsimp only
      split_ifs
      · exact ⟨hk.setPc _, hst⟩
      · exact .failed hk hst
    | fail => obtain rfl := Option.some.inj he; exact .failed hk hst
    | signal | kill => obtain rfl := Option.some.inj he; exact ⟨hk.setPc _, trivial⟩
    | _ => cases he
  | choose =>
    cases a with
    | go p =>
      obtain rfl := Option.some.inj he
      dsimp only [Effect.goOn]
      split_ifs with hp
      · exact .viewLoop hk hst
      · refine ⟨hk.setPc _, ⟨fun hnil => absurd hnil hst.1, fun e he => hst.2 e he _ trivial, fun q hq => ?_,
          fun hq => (by cases hq)⟩⟩
        cases hq
        exact Bool.not_eq_true _ ▸ hp
    | signal | kill => obtain rfl := Option.some.inj he; exact ⟨hk.setPc _, trivial⟩
    | _ => cases he
  | returned =>
    cases a with
    | go p | signal | kill => obtain rfl := Option.some.inj he; exact ⟨hk.setPc _, trivial⟩
    | _ => cases he
  | closed => cases a <;> cases he

theorem onRecord (h : (system id).Reachable s) : s.OnRecord := by
  have hind : (system id).Inductive OnRecord := by
    refine ⟨?_, fun _ _ _ h hs => h.step hs⟩
    rintro _ rfl
    exact ⟨.init, rfl⟩
  exact hind.reachable h

end Visit

/-! ## What is true of the commands -/

namespace Keeps

theorem endsIn (hchain : log.IsChain fun e' e => e.Next e'.call) (hfirst : ∀ e ∈ log.getLast?, e.call = .enter) :
    ∀ e ∈ log.head?, EndsIn (log.reverse.map fun e => e.call.letter) e.call := by
  induction log with
  | nil => simp
  | cons d log ih =>
    intro e he
    obtain rfl := Option.some.inj he
    rw [List.reverse_cons, List.map_append, List.map_singleton]
    cases log with
    | nil =>
      rw [hfirst d (by simp)]
      exact Language.append_mem_mul (a := [_]) rfl (Language.nil_mem_kstar _)
    | cons e log =>
      obtain ⟨hnext, hchain⟩ := List.isChain_cons.1 hchain
      exact (ih hchain (fun e he => hfirst e (by simpa using he)) e rfl).next (hnext e rfl)

theorem countP_le (honce : log.Pairwise fun e' e => ∀ p, e.Viewed p = true → e'.call ≠ .view p) (p : Painting) :
    log.countP (·.Viewed p) ≤ 1 := by
  induction log with
  | nil => simp
  | cons e log ih =>
    obtain ⟨hhead, honce⟩ := List.pairwise_cons.1 honce
    rw [List.countP_cons]
    split_ifs with he
    · have hnone : log.countP (·.Viewed p) = 0 := by
        refine List.countP_eq_zero.2 fun d hd hp => ?_
        exact hhead d hd p hp (Issued.viewed_iff.1 he).1
      omega
    · exact ih honce

theorem countP_eq (h : Keeps v log) (hp : v.visited p = true) : log.countP (·.Viewed p) = 1 := by
  have hle := countP_le h.once p
  have hpos : 0 < log.countP (·.Viewed p) := List.countP_pos_iff.2 ((h.visited p).1 hp)
  omega

end Keeps

namespace V9

/-- **The grammar of a visit.** -/
theorem visit_obeys {id : ℤ} {s : Visit} (h : (Visit.system id).Reachable s) : s.Obeys := by
  obtain ⟨hk, hst⟩ := Visit.onRecord h
  have hended : s.visitor.pc = .returned → Ended s.log := by
    intro hpc
    simpa only [Stands, hpc] using hst
  have hlog : ∀ {l}, s.commands = l → s.log = l.reverse := fun hl => List.reverse_eq_iff.1 hl
  refine ⟨fun hne => ?_, fun hpc => ?_, fun xs e ys p hs he hys => ?_, fun xs e ys p hs he e' he' => ?_,
    fun ⟨e, he, hexit⟩ p => ?_⟩
  · obtain ⟨e, old, hlast⟩ := List.exists_cons_of_ne_nil (mt List.reverse_eq_nil_iff.2 hne)
    exact (Keeps.endsIn hk.chain hk.first e (by rw [hlast]; rfl)).mem_visitWords
  · exact mt List.reverse_eq_nil_iff.1 (hended hpc).1
  · cases ys with
    | nil =>
      have hhead : s.log.head? = some e := by simp [hlog hs]
      have hnot := (hended (hys.resolve_left (· rfl))).2 e hhead p
      rw [Issued.Viewed, he] at hnot
      simpa using hnot
    | cons e' ys =>
      have hsplit : s.log = ys.reverse ++ e' :: e :: xs.reverse := by simp [hlog hs]
      have hnext : e.Next e'.call := List.isChain_iff_forall_rel_of_append_cons_cons.1 hk.chain hsplit
      rw [List.head?_cons, Option.map_some, Option.some.injEq]
      by_cases hok : e.ViewOk = true
      · exact iff_of_true ((Issued.next_of_viewOk he hok).1 hnext) hok
      · rw [Issued.next_of_not_viewOk he (Bool.not_eq_true _ ▸ hok)] at hnext
        refine iff_of_false (fun hleave => ?_) hok
        rw [hleave] at hnext
        exact hnext
  · have hpairs := hk.once
    rw [hlog hs, List.pairwise_reverse] at hpairs
    exact (List.pairwise_cons.1 (List.pairwise_append.1 hpairs).2.1).1 e' he' p he
  · rw [Visit.commands, List.countP_reverse]
    exact hk.countP_eq (hk.exit ⟨e, List.mem_reverse.1 he, hexit⟩ p)

/-- A visitor that has to wait for a place, is refused the first painting and then views
    another one. -/
def waiting : List Act :=
  [.connect, .draw 0, .recv (enterWait 1), .draw 0, .timeout, .draw 0, .recv (enterOk 1),
   .draw 3, .draw 0, .recv (viewWait 1 3), .draw 2, .draw 0, .recv (viewOk 1 2), .draw 0]

theorem visit_obeys_waiting : ∃ s : Visit,
    s.commands.map Issued.call = [.enter, .reenter, .view 3, .view 2, .leavePainting 2] ∧ s.Obeys := by
  obtain ⟨s, hs, -, hcalls⟩ := System.exec_of_any Visit.init (Visit.step 1) waiting
    (fun s => s.commands.map Issued.call = [.enter, .reenter, .view 3, .view 2, .leavePainting 2])
    (by decide +kernel)
  exact ⟨s, of_decide_eq_true hcalls, visit_obeys (System.reachable_runFn hs)⟩

end V9

end Gallery
