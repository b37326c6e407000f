/-
  The gallery of idz os 3/10 with one visitor: to which of its calls the replies
  belong that the visitor receives.
-/
import OsCourse.Gallery.Replies

namespace Gallery

open Transition

/-! ## The network with the calls -/

/-- A call of `send_and_wait_response`: the first, the second, … -/
structure Tag where
  serial : ℕ
  call : Call
  deriving DecidableEq

/-- The server and one visitor; of every message on the way it is kept to which call
    it belongs.  A command belongs to the call that sends it, a reply to the call
    of its command. -/
structure Tagged where
  net : Net Unit Visitor
  /-- the latest call; before the first one, number 0 -/
  current : Tag
  up : List Tag
  down : List Tag
  /-- the calls to the replies of which belongs what has just been received -/
  taken : List Tag
  /-- a call has begun too early -/
  late : Bool

/-- The call that the visitor begins. -/
def Visitor.begins (v : Visitor) : Act → Option Call
  | .go _ => match v.pc with
    | .send k 0 => if v.shutdown then none else some k
    | _ => none
  | _ => none

/-- How many bytes are received. -/
def Act.received : Act → ℕ
  | .recv buf => buf.length
  | _ => 0

/-- The messages of which the first `n` bytes of a stream are part. -/
def touched : ℕ → List Text → ℕ
  | 0, _ => 0
  | _ + 1, [] => 0
  | n + 1, t :: ts => touched (n + 1 - t.length) ts + 1

namespace Tagged

def init : Tagged where
  net := .init fun _ => .init
  current := ⟨0, .enter⟩
  up := []
  down := []
  taken := []
  late := false

/-- No reply is on the way, and no command that the server answers: after the reply to
    a `LEAVE_PAINTING` the others are not answered. -/
def Quiet (s : Tagged) : Prop := s.down = [] ∧ ∀ t ∈ s.up, t.call.action = .leavePainting

instance (s : Tagged) : Decidable s.Quiet := inferInstanceAs (Decidable (_ ∧ _))

/-- The server handles one command at a time. -/
def Whole (s : Tagged) : Label Unit → Prop
  | .server _ (.data buf) => (s.net.conn ()).up.head? = some buf
  | _ => True

instance (s : Tagged) : DecidablePred s.Whole
  | .server _ (.data _) => inferInstanceAs (Decidable (_ = _))
  | .server _ .closed | .client _ _ | .accept _ _ => inferInstanceAs (Decidable True)

/-- What becomes of the tags in a step of the network to `n`. -/
def follow (s : Tagged) (n : Net Unit Visitor) : Label Unit → Tagged
  | .client _ a =>
    -- the `EXIT` of `cleanup` is no call, and goes with the latest one
    let current := match (s.net.proc ()).begins a with
      | some k => ⟨s.current.serial + 1, k⟩
      | none => s.current
    { net := n
      current := current
      up := s.up ++ List.replicate ((n.conn ()).up.length - (s.net.conn ()).up.length) current
      down := s.down.drop ((s.net.conn ()).down.length - (n.conn ()).down.length)
      taken := s.down.take (touched a.received (s.net.conn ()).down)
      late := s.late || ((s.net.proc ()).begins a).isSome && !decide s.Quiet }
  | .accept _ _ => { s with net := n, taken := [] }
  | .server _ r =>
    { s with
      net := n
      up := match r with
        | .data _ => s.up.tail
        | .closed => []
      down := s.down ++
        s.up.head?.toList.flatMap (List.replicate ((n.conn ()).down.length - (s.net.conn ()).down.length))
      taken := [] }

def step (id : ℤ) (s : Tagged) (a : Label Unit) : Option Tagged :=
  if s.Whole a then
    (Net.step V10.version (fun _ => Visitor.step V10.client id) s.net a).map fun n => s.follow n a
  else none

/-- What the visitor has received are replies to its current call. -/
def Paired (s : Tagged) : Prop := ∀ t ∈ s.taken, t = s.current

/-- Nothing is received when a call has begun too early. -/
def Timely (s : Tagged) : Label Unit → Prop
  | .client _ (.recv _) => s.late = false
  | _ => True

end Tagged

/-- The server and the visitor `id`. -/
def V10.dialogue (id : ℤ) : System Tagged (Label Unit) := .ofFn .init (Tagged.step id)

/-! ## The steps of the visitor -/

namespace Pc

/-- `visit_gallery` is running. -/
def Active : Pc → Prop
  | returned | closed => False
  | _ => True

/-- No call is running. -/
def Between : Pc → Prop
  | start | choose | send _ 0 => True
  | _ => False

end Pc

theorem Visitor.viewLoop_pc (v : Visitor) : v.viewLoop.pc.Between ∨ v.viewLoop.pc = .returned := by
  unfold viewLoop
  split_ifs
  · exact .inr rfl
  · exact .inl trivial
  · exact .inl trivial

theorem Visitor.waitLoop_pc (v : Visitor) : v.waitLoop.pc.Between ∨ v.waitLoop.pc = .returned := by
  unfold waitLoop
  split_ifs
  · exact v.viewLoop_pc
  · exact .inl trivial

theorem Visitor.afterCall_none (v : Visitor) (k : Call) : v.afterCall k none = { v with pc := .returned } := by
  cases k <;> rfl

/-- After a call the visitor is between two calls, or `visit_gallery` returns. -/
theorem Visitor.afterCall_pc (v : Visitor) (k : Call) (r : Option Text) :
    (v.afterCall k r).pc.Between ∨ (v.afterCall k r).pc = .returned := by
  cases r with
  | none => cases k <;> exact .inr rfl
  | some r =>
    cases k with
    | exit => exact .inr rfl
    | leavePainting => exact v.viewLoop_pc
    | _ =>
      simp only [afterCall]
      split_ifs
      all_goals first | exact .inl trivial | exact v.viewLoop_pc | exact v.waitLoop_pc

/-- **The steps of a visitor while `visit_gallery` runs.** -/
inductive Visitor.Moves (id : ℤ) (v : Visitor) (a : Act) (e : Effect Visitor) : Prop
  /-- it begins a call -/
  | begin {k : Call} {p : Painting} : v.pc = .send k 0 → a = .go p → v.begins a = some k →
      e.state.pc = .wait k 0 → e.sends = [k.message id] → Moves id v a e
  /-- it sends its command again -/
  | again {k : Call} {m : ℕ} {p : Painting} : v.pc = .send k (m + 1) → a = .go p → v.begins a = none →
      e.state.pc = .wait k (m + 1) → e.sends = [k.message id] → Moves id v a e
  | receive {buf : Text} : a = .recv buf → e.state.pc.Between → e.sends = [] → Moves id v a e
  /-- it goes on without a message -/
  | goOn : v.begins a = none → (∀ buf, a ≠ .recv buf) → e.sends = [] →
      (e.state.pc = v.pc ∨ (v.pc.Between ∧ e.state.pc.Between) ∨
        ∃ k m, v.pc = .wait k m ∧ e.state.pc = .send k (m + 1)) → Moves id v a e

/-- A signal leaves the visitor where it is, or ends it. -/
theorem Visitor.step_signal {cw : ClientVersion} {id : ℤ} {v : Visitor} {e : Effect Visitor}
    (h : Visitor.step cw id v .signal = some e) (he : e.state.pc.Active) :
    e = .goOn { v with shutdown := true } := by
  unfold Visitor.step at h
  cases hpc : v.pc with
  | closed => simp [hpc] at h
  | _ =>
    simp only [hpc, Option.some.injEq] at h
    subst h
    split_ifs at he ⊢
    · rfl
    · exact he.elim

theorem Visitor.moves_of_step {cw : ClientVersion} {id : ℤ} {v : Visitor} {a : Act} {e : Effect Visitor}
    (h : Visitor.step cw id v a = some e) (he : e.state.pc.Active) :
    e.closes = false ∧ Visitor.Moves id v a e := by
  cases a with
  | connect =>
    unfold Visitor.step at h
    cases hpc : v.pc with
    | start =>
      simp only [hpc, Option.some.injEq] at h; subst h
      exact ⟨rfl, .goOn rfl nofun rfl (.inr (.inl ⟨hpc ▸ trivial, trivial⟩))⟩
    | _ => simp [hpc] at h
  | go p =>
    unfold Visitor.step at h
    cases hpc : v.pc with
    | send k m =>
      simp only [hpc] at h
      cases hs : v.shutdown with
      | true =>
        simp only [hs, if_true, Option.some.injEq] at h; subst h
        rw [Effect.goOn, Visitor.afterCall_none] at he; exact he.elim
      | false =>
        simp only [hs, Bool.false_eq_true, if_false, Option.some.injEq] at h; subst h
        cases m with
        | zero => exact ⟨rfl, .begin hpc rfl (by simp [Visitor.begins, hpc, hs]) rfl rfl⟩
        | succ m => exact ⟨rfl, .again hpc rfl (by simp [Visitor.begins, hpc]) rfl rfl⟩
    | choose =>
      simp only [hpc, Option.some.injEq] at h; subst h
      refine ⟨rfl, .goOn (by simp [Visitor.begins, hpc]) nofun rfl (.inr (.inl ⟨hpc ▸ trivial, ?_⟩))⟩
      simp only [Effect.goOn] at he ⊢
      split_ifs at he ⊢
      · rcases v.viewLoop_pc with hb | hr
        · exact hb
        · rw [hr] at he; exact he.elim
      · trivial
    | returned =>
      simp only [hpc, Option.some.injEq] at h; subst h
      split_ifs at he <;> exact he.elim
    | _ => simp [hpc] at h
  | recv buf =>
    unfold Visitor.step at h
    cases hpc : v.pc with
    | wait k m =>
      simp only [hpc, Option.some.injEq] at h; subst h
      rcases v.afterCall_pc k (if cw.refuses (Text.cstr buf) then none else some (Text.cstr buf)) with hb | hr
      · exact ⟨rfl, .receive rfl hb rfl⟩
      · simp only [Effect.goOn, hr] at he; exact he.elim
    | _ => simp [hpc] at h
  | timeout =>
    unfold Visitor.step at h
    cases hpc : v.pc with
    | wait k m =>
      simp only [hpc, Option.some.injEq] at h; subst h
      rw [Effect.goOn, Visitor.afterCall_none] at he ⊢
      split_ifs at he ⊢
      · exact ⟨rfl, .goOn rfl nofun rfl (.inr (.inr ⟨k, m, hpc, rfl⟩))⟩
      · exact he.elim
    | _ => simp [hpc] at h
  | fail =>
    unfold Visitor.step at h
    cases hpc : v.pc with
    | send k m | wait k m =>
      simp only [hpc, Option.some.injEq] at h; subst h
      rw [Effect.goOn, Visitor.afterCall_none] at he; exact he.elim
    | _ => simp [hpc] at h
  | signal =>
    obtain rfl := Visitor.step_signal h he
    exact ⟨rfl, .goOn rfl nofun rfl (.inl rfl)⟩
  | kill =>
    unfold Visitor.step at h
    cases hpc : v.pc with
    | closed => simp [hpc] at h
    | _ => simp only [hpc, Option.some.injEq] at h; subst h; exact he.elim

/-- Nothing is received outside of `visit_gallery`. -/
theorem Visitor.active_of_recv {cw : ClientVersion} {id : ℤ} {v : Visitor} {buf : Text} {e : Effect Visitor}
    (h : Visitor.step cw id v (.recv buf) = some e) : v.pc.Active := by
  unfold Visitor.step at h
  cases hpc : v.pc with
  | returned | closed => simp [hpc] at h
  | _ => trivial

/-- `visit_gallery` does not run again. -/
theorem Visitor.active_of_step {cw : ClientVersion} {id : ℤ} {v : Visitor} {a : Act} {e : Effect Visitor}
    (h : Visitor.step cw id v a = some e) (he : e.state.pc.Active) : v.pc.Active := by
  unfold Visitor.step at h
  cases hpc : v.pc with
  | returned =>
    cases a with
    | go | signal =>
      simp only [hpc, Option.some.injEq] at h; subst h
      split_ifs at he <;> exact he.elim
    | kill => simp only [hpc, Option.some.injEq] at h; subst h; exact he.elim
    | _ => simp [hpc] at h
  | closed => cases a <;> simp [hpc] at h
  | _ => trivial

/-! ## Calls in order -/

/-- After a `LEAVE_PAINTING` the slot is at no painting, and it is not answered if the
    slot was at none. -/
theorem Version.Handles.leave_spec {w : Version} {s : Server} {i : Slot} {id n : ℤ} {x : Reaction}
    (h : w.Handles s i (.command id (some .leavePainting) n) x) :
    (x.server.clients i).currentPainting = -1 ∧ ((s.clients i).currentPainting = -1 → x.response = []) := by
  cases h with
  | left hp => exact ⟨by simp [reply], fun hp' => absurd hp' hp⟩
  | notLeft hp => exact ⟨by simpa [silent] using hp, fun _ => rfl⟩

/-- Only a `LEAVE_PAINTING` is not answered. -/
theorem Version.Handles.action_of_silent {w : Version} {s : Server} {i : Slot} {id : ℤ} {k : Call}
    {x : Reaction} (h : w.Handles s i (.command id (some k.action) k.number) x) (hr : x.response = []) :
    k.action = .leavePainting := by
  by_contra hk
  obtain ⟨stay, ha⟩ := h.answer fun hk' => absurd hk' hk
  exact ha.ne_nil hr

theorem length_dropBytes_le (n : ℕ) (ts : List Text) : (dropBytes n ts).length ≤ ts.length := by
  induction ts generalizing n with
  | nil => cases n <;> rfl
  | cons t ts ih =>
    cases n with
    | zero => exact le_rfl
    | succ n =>
      rw [dropBytes]
      split_ifs
      · simp
      · exact (ih _).trans (Nat.le_succ _)

namespace Tagged

/-- No slot is at a painting. -/
def AtNone (s : Tagged) : Prop := ∀ i, (s.net.server.clients i).currentPainting = -1

/-- Every call has begun in time: the replies on the way belong to the current call,
    and so do the commands, but for some that the server will not answer. -/
structure Prompt (s : Tagged) : Prop where
  down : ∀ t ∈ s.down, t = s.current
  up : ∃ old cur, s.up = old ++ cur ∧ (∀ t ∈ cur, t = s.current) ∧
    (∀ t ∈ old, t.serial < s.current.serial ∧ t.call.action = .leavePainting) ∧
    (old ≠ [] → s.AtNone) ∧
    (s.down ≠ [] ∨ (s.net.proc ()).pc.Between → old = [] ∧
      (s.current.call.action = .leavePainting → s.AtNone))

/-- A call has begun too early: the next reply belongs to an earlier one. -/
def Early (s : Tagged) : Prop := ¬ (s.net.proc ()).pc.Between ∧
  ((∃ t ts, s.down = t :: ts ∧ t.serial < s.current.serial) ∨
    s.down = [] ∧ ∃ a t b, s.up = a ++ t :: b ∧ (∀ x ∈ a, x.serial < s.current.serial) ∧
      t.serial < s.current.serial ∧ t.call.action ≠ .leavePainting)

/-- What holds while `visit_gallery` runs. -/
structure Going (id : CInt) (s : Tagged) : Prop where
  opened : (s.net.conn ()).closed = false
  monitors : ∀ i, (s.net.server.clients i).isMonitor = false
  up : (s.net.conn ()).up = s.up.map fun t => t.call.message id
  down : s.down.length = (s.net.conn ()).down.length
  serial : ∀ t ∈ s.up ++ s.down, t.serial ≤ s.current.serial
  others : ∀ i, s.net.slot () ≠ some i → (s.net.server.clients i).currentPainting = -1
  call : ∀ k m, (s.net.proc ()).pc = .wait k m ∨ (s.net.proc ()).pc = .send k (m + 1) → s.current.call = k
  prompt : s.late = false → s.Prompt
  early : s.late = true → s.Early

/-- The invariant, as long as nothing is received when a call has begun too early. -/
structure Kept (id : CInt) (s : Tagged) : Prop where
  legal : s.net.server.Legal
  wired : s.net.Wired
  paired : s.Paired
  going : (s.net.proc ()).pc.Active → s.Going id

theorem kept_init (id : CInt) : init.Kept id where
  legal := Server.legal_init
  wired := Net.wired_init _
  paired _ ht := absurd ht List.not_mem_nil
  going _ := {
    opened := rfl
    monitors := fun _ => rfl
    up := rfl
    down := rfl
    serial := fun _ ht => absurd ht List.not_mem_nil
    others := fun _ _ => rfl
    call := fun _ _ h => by rcases h with h | h <;> cases h
    prompt := fun _ => ⟨fun _ ht => absurd ht List.not_mem_nil, [], [], rfl, fun _ ht => absurd ht List.not_mem_nil,
      fun _ ht => absurd ht List.not_mem_nil, fun h => absurd rfl h, fun _ => ⟨rfl, fun _ _ => rfl⟩⟩
    early := nofun }

/-- The network after a step of the visitor. -/
def moved (s : Tagged) (e : Effect Visitor) (c : Conn) : Net Unit Visitor :=
  { s.net with proc := Function.update s.net.proc () e.state, conn := Function.update s.net.conn () (c.push e) }

variable {s s' : Tagged} {id : CInt} {a : Act} {e : Effect Visitor} {c : Conn}

@[simp] theorem moved_proc : (s.moved e c).proc () = e.state := by simp [moved]

@[simp] theorem moved_conn : (s.moved e c).conn () = c.push e := by simp [moved]

theorem slot_moved (hc : (s.net.conn ()).call a = some c) : (s.moved e c).slot () = s.net.slot () := by
  have hsock := Conn.call_sock hc
  simp only [Net.slot, moved, Function.update_self, Conn.push]
  rcases hsock with h | ⟨h, h'⟩
  · rw [h]; rfl
  · rw [h, h']

theorem follow_client (hc : (s.net.conn ()).call a = some c) : s.follow (s.moved e c) (.client () a) =
    let current := match (s.net.proc ()).begins a with
      | some k => ⟨s.current.serial + 1, k⟩
      | none => s.current
    { net := s.moved e c
      current := current
      up := s.up ++ List.replicate e.sends.length current
      down := s.down.drop ((s.net.conn ()).down.length - c.down.length)
      taken := s.down.take (touched a.received (s.net.conn ()).down)
      late := s.late || ((s.net.proc ()).begins a).isSome && !decide s.Quiet } := by
  simp [follow, moved, Conn.push, (Conn.call_spec hc).1]

/-- **The visitor begins a call.** -/
theorem Going.begin (h : s.Going id) {k : Call} {p : Painting} (hc : (s.net.conn ()).call (.go p) = some c)
    (hpc : (s.net.proc ()).pc = .send k 0) (hb : (s.net.proc ()).begins (.go p) = some k)
    (he : e.state.pc = .wait k 0) (hs : e.sends = [k.message id]) (hcl : e.closes = false) :
    (s.follow (s.moved e c) (.client () (.go p))).Going id := by
  have hlate : s.late = false := by
    by_contra hl
    refine (h.early (by simpa using hl)).1 ?_
    rw [hpc]; trivial
  obtain ⟨hup, hclosed, hdown⟩ := Conn.call_spec hc
  have hslot := slot_moved (e := e) hc
  obtain ⟨hprompt, old, cur, hupeq, hcur, hold, hnone, hbetween⟩ := h.prompt hlate
  have hdown := hdown nofun
  have hserial : ∀ t ∈ s.up ++ s.down, t.serial < s.current.serial + 1 :=
    fun t ht => Nat.lt_succ_of_le (h.serial t ht)
  have hnew : ((s.moved e c).proc ()).pc = .wait k 0 := by simp [he]
  have hbetween' : ¬ ((s.moved e c).proc ()).pc.Between := by rw [hnew]; exact fun h => h
  rw [follow_client hc, hb, hs, hlate, hdown]
  simp only [List.length_singleton, List.replicate_one, Nat.sub_self, List.drop_zero, Bool.false_or,
    Option.isSome_some, Bool.true_and]
  refine ⟨?_, h.monitors, ?_, ?_, ?_, ?_, ?_, ?_, ?_⟩
  · simp [moved, Conn.push, hclosed, hcl, h.opened]
  · simp [moved, Conn.push, hup, hs, h.up]
  · simp [moved, Conn.push, hdown, h.down]
  · intro t ht
    rcases List.mem_append.1 ht with ht | ht
    · rcases List.mem_append.1 ht with ht | ht
      · exact (hserial t (List.mem_append_left _ ht)).le
      · rw [List.mem_singleton.1 ht]
    · exact (hserial t (List.mem_append_right _ ht)).le
  · exact fun i hi => h.others i (hslot ▸ hi)
  · rintro k' m (hpc' | hpc')
    · cases hnew.symm.trans hpc'; rfl
    · cases hnew.symm.trans hpc'
  · intro hq
    -- the commands on the way are those of a `LEAVE_PAINTING` that has been answered
    obtain ⟨hnil, hleave⟩ : s.Quiet := by simpa using hq
    obtain ⟨rfl, hnone'⟩ := hbetween (.inr (by rw [hpc]; trivial))
    rw [List.nil_append] at hupeq
    refine ⟨fun t ht => absurd ht (by simp [hnil]), cur, [⟨s.current.serial + 1, k⟩], by rw [hupeq],
      fun t ht => List.mem_singleton.1 ht, ?_, ?_, ?_⟩
    · intro t ht
      exact ⟨hserial t (List.mem_append_left _ (hupeq ▸ ht)), hleave t (hupeq ▸ ht)⟩
    · intro hne
      obtain ⟨t, ht⟩ := List.exists_mem_of_ne_nil _ hne
      exact hnone' (hcur t ht ▸ hleave t (hupeq ▸ ht))
    · intro hb
      rcases hb with hb | hb
      · exact absurd hnil hb
      · exact absurd hb hbetween'
  · intro hq
    refine ⟨hbetween', ?_⟩
    have hq : ¬ s.Quiet := by simpa using hq
    cases hd : s.down with
    | cons t ts => exact .inl ⟨t, ts, rfl, hserial t (by simp [hd])⟩
    | nil =>
      obtain ⟨t, ht, hact⟩ : ∃ t ∈ s.up, t.call.action ≠ .leavePainting := by
        by_contra hall
        exact hq ⟨hd, fun t ht => by_contra fun hact => hall ⟨t, ht, hact⟩⟩
      obtain ⟨u, v, huv⟩ := List.append_of_mem ht
      refine .inr ⟨rfl, u, t, v ++ [⟨s.current.serial + 1, k⟩], by simp [huv], ?_, ?_, hact⟩
      · intro x hx
        exact hserial x (by simp [huv, hx])
      · exact hserial t (List.mem_append_left _ ht)

/-- **The visitor sends its command again.** -/
theorem Going.again (h : s.Going id) {k : Call} {m : ℕ} {p : Painting}
    (hc : (s.net.conn ()).call (.go p) = some c) (hpc : (s.net.proc ()).pc = .send k (m + 1))
    (hb : (s.net.proc ()).begins (.go p) = none) (he : e.state.pc = .wait k (m + 1))
    (hs : e.sends = [k.message id]) (hcl : e.closes = false) :
    (s.follow (s.moved e c) (.client () (.go p))).Going id := by
  obtain ⟨hup, hclosed, hdown⟩ := Conn.call_spec hc
  have hdown := hdown nofun
  have hslot := slot_moved (e := e) hc
  have hcall := h.call k m (.inr hpc)
  have hnew : ((s.moved e c).proc ()).pc = .wait k (m + 1) := by simp [he]
  have hbetween : ¬ ((s.moved e c).proc ()).pc.Between := by rw [hnew]; exact fun h => h
  rw [follow_client hc, hb, hs, hdown]
  simp only [List.length_singleton, List.replicate_one, Nat.sub_self, List.drop_zero,
    Option.isSome_none, Bool.false_and, Bool.or_false]
  refine ⟨?_, h.monitors, ?_, ?_, ?_, ?_, ?_, ?_, ?_⟩
  · simp [Conn.push, hclosed, hcl, h.opened]
  · simp [Conn.push, hup, hs, h.up, hcall]
  · simp [Conn.push, hdown, h.down]
  · intro t ht
    simp only [List.append_assoc, List.singleton_append, List.mem_append, List.mem_cons] at ht
    rcases ht with ht | rfl | ht
    · exact h.serial t (List.mem_append_left _ ht)
    · exact le_rfl
    · exact h.serial t (List.mem_append_right _ ht)
  · exact fun i hi => h.others i (hslot ▸ hi)
  · rintro k' m' (hpc' | hpc')
    · cases hnew.symm.trans hpc'; exact hcall
    · cases hnew.symm.trans hpc'
  · intro hl
    obtain ⟨hprompt, old, cur, hupeq, hcur, hold, hnone, hdone⟩ := h.prompt hl
    refine ⟨hprompt, old, cur ++ [s.current], by simp [hupeq], ?_, hold, hnone, ?_⟩
    · intro t ht
      rcases List.mem_append.1 ht with ht | ht
      · exact hcur t ht
      · exact List.mem_singleton.1 ht
    · intro hd
      rcases hd with hd | hd
      · exact hdone (.inl hd)
      · exact absurd hd hbetween
  · intro hl
    obtain ⟨-, hd | ⟨hd, x, t, y, hxy, hx, ht, hact⟩⟩ := h.early hl
    · exact ⟨hbetween, .inl hd⟩
    · exact ⟨hbetween, .inr ⟨hd, x, t, y ++ [s.current], by simp [hxy], hx, ht, hact⟩⟩

/-- **The visitor receives** a part of the replies on the way. -/
theorem Going.receive (h : s.Going id) {buf : Text} (hlate : s.late = false)
    (hc : (s.net.conn ()).call (.recv buf) = some c) (he : e.state.pc.Between) (hs : e.sends = [])
    (hcl : e.closes = false) :
    (s.follow (s.moved e c) (.client () (.recv buf))).Going id := by
  obtain ⟨hup, hclosed, -⟩ := Conn.call_spec hc
  have hslot := slot_moved (e := e) hc
  obtain ⟨hread, hc'⟩ := Option.ite_none_right_eq_some.1 hc
  have hdown : c.down = dropBytes buf.length (s.net.conn ()).down := by cases hc'; rfl
  have hsome : s.down ≠ [] := by
    intro hnil
    have hlen := h.down
    rw [hnil, List.length_nil] at hlen
    obtain ⟨hne, -, hpre⟩ := hread
    rw [List.length_eq_zero_iff.1 hlen.symm] at hpre
    exact hne (List.prefix_nil.1 (List.isPrefixOf_iff_prefix.1 hpre))
  have hle := length_dropBytes_le buf.length (s.net.conn ()).down
  rw [follow_client hc, hs]
  simp only [Visitor.begins, List.length_nil, List.replicate_zero, List.append_nil,
    Option.isSome_none, Bool.false_and, Bool.or_false]
  refine ⟨?_, h.monitors, ?_, ?_, ?_, ?_, ?_, ?_, ?_⟩
  · simp [Conn.push, hclosed, hcl, h.opened]
  · simp [Conn.push, hup, hs, h.up]
  · simp only [moved_conn, Conn.push, List.length_drop, h.down, hdown]
    omega
  · intro t ht
    refine h.serial t (List.mem_append.2 ((List.mem_append.1 ht).imp_right List.mem_of_mem_drop))
  · exact fun i hi => h.others i (hslot ▸ hi)
  · rintro k' m' hpc'
    simp only [moved_proc] at hpc'
    rcases hpc' with hpc' | hpc'
    all_goals rw [hpc'] at he; exact he.elim
  · intro _
    obtain ⟨hprompt, old, cur, hupeq, hcur, hold, hnone, hdone⟩ := h.prompt hlate
    exact ⟨fun t ht => hprompt t (List.mem_of_mem_drop ht), old, cur, hupeq, hcur, hold, hnone,
      fun _ => hdone (.inl hsome)⟩
  · intro hl
    rw [hlate] at hl; cases hl

/-- **The visitor goes on** without a message. -/
theorem Going.goOn (h : s.Going id) (hc : (s.net.conn ()).call a = some c)
    (hb : (s.net.proc ()).begins a = none) (ha : ∀ buf, a ≠ .recv buf) (hs : e.sends = [])
    (hcl : e.closes = false) (he : e.state.pc = (s.net.proc ()).pc ∨
      ((s.net.proc ()).pc.Between ∧ e.state.pc.Between) ∨
        ∃ k m, (s.net.proc ()).pc = .wait k m ∧ e.state.pc = .send k (m + 1)) :
    (s.follow (s.moved e c) (.client () a)).Going id := by
  obtain ⟨hup, hclosed, hdown⟩ := Conn.call_spec hc
  have hdown := hdown ha
  have hslot := slot_moved (e := e) hc
  have hbetween : e.state.pc.Between ↔ (s.net.proc ()).pc.Between := by
    rcases he with he | ⟨h1, h2⟩ | ⟨k, m, h1, h2⟩
    · rw [he]
    · exact iff_of_true h2 h1
    · rw [h1, h2]; exact Iff.rfl
  rw [follow_client hc, hb, hs, hdown]
  simp only [List.length_nil, List.replicate_zero, List.append_nil, Nat.sub_self, List.drop_zero,
    Option.isSome_none, Bool.false_and, Bool.or_false]
  refine ⟨?_, h.monitors, ?_, ?_, h.serial, ?_, ?_, ?_, ?_⟩
  · simp [Conn.push, hclosed, hcl, h.opened]
  · simp [Conn.push, hup, hs, h.up]
  · simp [Conn.push, hdown, h.down]
  · exact fun i hi => h.others i (hslot ▸ hi)
  · rintro k' m' hpc'
    simp only [moved_proc] at hpc'
    rcases he with he | ⟨-, he⟩ | ⟨k, m, h1, h2⟩
    · exact h.call k' m' (he ▸ hpc')
    · rcases hpc' with hpc' | hpc'
      all_goals rw [hpc'] at he; exact he.elim
    · rcases hpc' with hpc' | hpc'
      · cases h2.symm.trans hpc'
      · cases h2.symm.trans hpc'; exact h.call _ _ (.inl h1)
  · intro hl
    obtain ⟨hprompt, old, cur, hupeq, hcur, hold, hnone, hdone⟩ := h.prompt hl
    exact ⟨hprompt, old, cur, hupeq, hcur, hold, hnone,
      fun hd => hdone (hd.imp_right fun hd => hbetween.1 (by simpa using hd))⟩
  · intro hl
    obtain ⟨hnb, hd⟩ := h.early hl
    exact ⟨fun hb => hnb (hbetween.1 (by simpa using hb)), hd⟩

/-- **A step of the visitor.** -/
theorem Kept.client (h : s.Kept id) (he : Visitor.step V10.client id (s.net.proc ()) a = some e)
    (hc : (s.net.conn ()).call a = some c) (ht : s.Timely (.client () a)) :
    (s.follow (s.moved e c) (.client () a)).Kept id := by
  refine ⟨h.legal, h.wired.client () (by simpa [Conn.push] using Conn.call_sock hc), ?_,
    ?_⟩
  · intro t hmem
    rw [follow_client hc] at hmem ⊢
    cases a with
    | recv buf =>
      have hv : (s.net.proc ()).pc.Active := Visitor.active_of_recv he
      exact ((h.going hv).prompt ht).down t (List.mem_of_mem_take hmem)
    | _ => simp [Act.received, touched] at hmem
  · intro hact
    have hact : e.state.pc.Active := by rw [follow_client hc] at hact; simpa using hact
    have hv := Visitor.active_of_step he hact
    have hgo := h.going hv
    obtain ⟨hcl, hmoves⟩ := Visitor.moves_of_step he hact
    cases hmoves with
    | begin hpc ha hb hpc' hs => subst ha; exact hgo.begin hc hpc hb hpc' hs hcl
    | again hpc ha hb hpc' hs => subst ha; exact hgo.again hc hpc hb hpc' hs hcl
    | receive ha hpc' hs => subst ha; exact hgo.receive ht hc hpc' hs hcl
    | goOn hb ha hs hpc' => exact hgo.goOn hc hb ha hs hcl hpc'

/-- **The connection is accepted.** -/
theorem Kept.accept (h : s.Kept id) {newSocket : ℤ} (hb : (s.net.conn ()).sock = .backlog) (hpos : 0 < newSocket)
    (hfresh : ∀ v, (s.net.conn v).sock ≠ .accepted newSocket) :
    (s.follow { s.net with
      server := s.net.server.accept newSocket
      conn := Function.update s.net.conn () { s.net.conn () with sock := .accepted newSocket } }
      (.accept () newSocket)).Kept id := by
  refine ⟨h.legal.accept _, h.wired.accept hb hpos hfresh, fun t ht => absurd ht List.not_mem_nil, fun hact => ?_⟩
  have hgo := h.going hact
  have hnone : s.AtNone := fun i => hgo.others i (by simp [Net.slot, hb])
  have hclients : ∀ i, ((s.net.server.accept newSocket).clients i).currentPainting = -1 ∧
      ((s.net.server.accept newSocket).clients i).isMonitor = false := by
    intro i
    rcases s.net.server.accept_cases newSocket with ⟨k, -, -, he⟩ | ⟨-, he⟩
    · by_cases hik : i = k
      · subst hik; simpa [he] using ⟨hnone i, hgo.monitors i⟩
      · simpa [he, hik] using ⟨hnone i, hgo.monitors i⟩
    · rw [he]; exact ⟨hnone i, hgo.monitors i⟩
  refine ⟨by simpa [follow] using hgo.opened, fun i => (hclients i).2, by simpa [follow] using hgo.up,
    by simpa [follow] using hgo.down, hgo.serial, fun i _ => (hclients i).1, hgo.call, fun hl => ?_, hgo.early⟩
  obtain ⟨hprompt, old, cur, hupeq, hcur, hold, -, hdone⟩ := hgo.prompt hl
  exact ⟨hprompt, old, cur, hupeq, hcur, hold, fun _ i => (hclients i).1,
    fun hd => ⟨(hdone hd).1, fun _ i => (hclients i).1⟩⟩

section Server
variable {i : Slot} {buf : Text} {inp : Input} {x : Reaction}

/-- The network after a message. -/
def answered (s : Tagged) (c : Conn) (inp : Input) (x : Reaction) : Net Unit Visitor :=
  { server := x.server
    proc := s.net.proc
    conn := fun v => (Function.update s.net.conn () c v).deliver x.sends
    log := ⟨(), inp, x.response⟩ :: s.net.log }

/-- The first message on the way belongs to the first tag. -/
theorem Going.first (h : s.Going id) (hwhole : (s.net.conn ()).up.head? = some buf) :
    ∃ t ts, s.up = t :: ts ∧ buf = t.call.message id := by
  rw [h.up] at hwhole
  cases hs : s.up with
  | nil => rw [hs] at hwhole; cases hwhole
  | cons t ts => rw [hs] at hwhole; exact ⟨t, ts, rfl, (Option.some.inj hwhole).symm⟩

/-- **The server handles a command** while `visit_gallery` runs. -/
theorem Going.server (h : s.Going id) (hw : s.net.Wired) (hi : s.net.slot () = some i)
    (hc : (s.net.conn ()).read (.data buf) = some c) (hd : decode (.data buf) = .ok inp)
    (hh : V10.version.Handles s.net.server i inp x) (hwhole : (s.net.conn ()).up.head? = some buf) :
    (s.follow (s.answered c inp x) (.server () (.data buf))).Going id := by
  obtain ⟨t, ts, hup, rfl⟩ := h.first hwhole
  obtain rfl := Except.ok.inj ((decode_message id t.call).symm.trans hd)
  obtain ⟨-, hc'⟩ := Option.ite_none_right_eq_some.1 hc
  have hcup : c.up = ts.map fun t => t.call.message id := by
    cases hc'
    rw [h.up, hup, List.map_cons]
    exact dropBytes_length (message_ne_nil _ _) _
  have hcclosed : c.closed = false := by cases hc'; exact h.opened
  have hcdown := Conn.read_down hc
  have hcsock : c.sock = .accepted (s.net.server.clients i).fd := by cases hc'; exact Net.slot_eq_some hi
  have hmon : ∀ j, (x.server.clients j).isMonitor = false :=
    fun j => (hh.isMonitor_eq (by simp) j).trans (h.monitors j)
  have hnews : c.news x.sends = if x.response = [] then [] else [x.response] := by
    rw [Conn.news_of_quiet hh fun _ => by rw [Version.broadcastStatus_eq_nil hmon]; rfl]
    by_cases hr : x.response = [] <;> simp [hcsock, hr]
  have hfollow : s.follow (s.answered c (.command id (some t.call.action) t.call.number) x)
      (.server () (.data (t.call.message id))) =
        { s with net := s.answered c (.command id (some t.call.action) t.call.number) x
                 up := ts
                 down := s.down ++ if x.response = [] then [] else [t]
                 taken := [] } := by
    simp only [follow, answered, hup, Function.update_self, Conn.deliver_eq, hcdown, hnews]
    by_cases hr : x.response = [] <;> simp [hr]
  -- what the commands do to the paintings
  have hothers : ∀ j, j ≠ i → (x.server.clients j).currentPainting = -1 := by
    intro j hj
    rw [hh.clients_of_ne hj]
    exact h.others j fun hj' => hj (Option.some.inj (hj'.symm.trans hi))
  have hleave : t.call.action = .leavePainting → (∀ j, (x.server.clients j).currentPainting = -1) ∧
      (s.AtNone → x.response = []) := by
    intro hact
    rw [hact] at hh
    obtain ⟨h1, h2⟩ := hh.leave_spec
    refine ⟨fun j => ?_, fun hnone => h2 (hnone i)⟩
    by_cases hj : j = i
    · rw [hj]; exact h1
    · exact hothers j hj
  have hslot : (s.answered c (.command id (some t.call.action) t.call.number) x).slot () = some i := by
    refine (hw.server _ hi hh (Conn.read_sock hc hd)).slot_of ?_
    have hfd := hh.fd_eq i
    rw [if_neg (by simp)] at hfd
    simp [Conn.deliver_eq, hcsock, hfd]
  rw [hfollow]
  refine ⟨?_, hmon, ?_, ?_, ?_, ?_, h.call, ?_, ?_⟩
  · simp [answered, Conn.deliver_eq, hcclosed]
  · simp [answered, Conn.deliver_eq, hcup]
  · simp only [answered, Function.update_self, Conn.deliver_eq, hcdown, hnews, List.length_append, h.down]
    by_cases hr : x.response = [] <;> simp [hr]
  · intro t' ht'
    refine h.serial t' ?_
    rw [hup]
    by_cases hr : x.response = []
    · simp only [hr, if_true, List.append_nil, List.mem_append, List.mem_cons] at ht' ⊢
      exact ht'.imp_left .inr
    · simp only [hr, if_false, List.mem_append, List.mem_cons, List.not_mem_nil, or_false] at ht' ⊢
      rcases ht' with ht' | ht' | ht'
      · exact .inl (.inr ht')
      · exact .inr ht'
      · exact .inl (.inl ht')
  · intro j hj
    exact hothers j fun hji => hj (hji ▸ hslot)
  · intro hl
    obtain ⟨hprompt, old, cur, hupeq, hcur, hold, hnone, hdone⟩ := h.prompt hl
    rw [hup] at hupeq
    cases old with
    | nil =>
      obtain rfl : cur = t :: ts := hupeq.symm
      have ht := hcur t (List.mem_cons_self ..)
      refine ⟨fun t' ht' => ?_, [], ts, rfl, fun t' ht' => hcur t' (List.mem_cons_of_mem _ ht'), by simp,
        fun hne => absurd rfl hne, fun _ => ⟨rfl, fun hact => (hleave (ht ▸ hact)).1⟩⟩
      rcases List.mem_append.1 ht' with ht' | ht'
      · exact hprompt t' ht'
      · split_ifs at ht'
        · cases ht'
        · rw [List.mem_singleton.1 ht']; exact ht
    | cons t' old =>
      -- a command to which there is no reply
      obtain ⟨rfl, rfl⟩ := List.cons.inj hupeq
      have hact := (hold t (List.mem_cons_self ..)).2
      have hr := (hleave hact).2 (hnone (List.cons_ne_nil _ _))
      have hnot : ¬ (s.down ≠ [] ∨ (s.net.proc ()).pc.Between) := fun hd => List.cons_ne_nil _ _ (hdone hd).1
      simp only [hr, if_true, List.append_nil]
      exact ⟨hprompt, old, cur, rfl, hcur, fun t' ht' => hold t' (List.mem_cons_of_mem _ ht'),
        fun _ => (hleave hact).1, fun hd => absurd hd hnot⟩
  · intro hl
    obtain ⟨hbetween, ⟨t', rest, hdown, ht'⟩ | ⟨hdown, y, t', z, hyz, hy, ht', hact⟩⟩ := h.early hl
    · exact ⟨hbetween, .inl ⟨t', rest ++ if x.response = [] then [] else [t], by simp [hdown], ht'⟩⟩
    · rw [hup] at hyz
      refine ⟨hbetween, ?_⟩
      by_cases hr : x.response = []
      · cases y with
        | nil =>
          obtain ⟨rfl, rfl⟩ := List.cons.inj hyz
          exact absurd (hh.action_of_silent hr) hact
        | cons t'' y =>
          obtain ⟨rfl, rfl⟩ := List.cons.inj hyz
          exact .inr ⟨by simp [hdown, hr], y, t', z, rfl, fun t'' ht'' => hy t'' (List.mem_cons_of_mem _ ht''),
            ht', hact⟩
      · refine .inl ⟨t, [], by simp [hdown, hr], ?_⟩
        cases y with
        | nil => obtain ⟨rfl, rfl⟩ := List.cons.inj hyz; exact ht'
        | cons t'' y => obtain ⟨rfl, rfl⟩ := List.cons.inj hyz; exact hy t (List.mem_cons_self ..)

/-- **The server handles a message.** -/
theorem Kept.server (h : s.Kept id) {r : Read} (hi : s.net.slot () = some i)
    (hc : (s.net.conn ()).read r = some c) (hd : decode r = .ok inp)
    (hh : V10.version.Handles s.net.server i inp x) (hwhole : s.Whole (.server () r)) :
    (s.follow (s.answered c inp x) (.server () r)).Kept id := by
  refine ⟨hh.legal V10.tidy h.legal, h.wired.server _ hi hh (Conn.read_sock hc hd),
    fun t ht => absurd ht List.not_mem_nil, fun hact => ?_⟩
  have hgo := h.going hact
  cases r with
  | data buf => exact hgo.server h.wired hi hc hd hh hwhole
  | closed =>
    obtain ⟨hcl, -⟩ := Option.ite_none_right_eq_some.1 hc
    rw [hgo.opened] at hcl; cases hcl

end Server

theorem step_cases {a : Label Unit} (hl : s.net.server.Legal) (h : Tagged.step id s a = some s') :
    s.Whole a ∧
    ((∃ act e c, a = .client () act ∧ Visitor.step V10.client id (s.net.proc ()) act = some e ∧
        (s.net.conn ()).call act = some c ∧ s' = s.follow (s.moved e c) a) ∨
      (∃ newSocket, a = .accept () newSocket ∧ (s.net.conn ()).sock = .backlog ∧ 0 < newSocket ∧
        (∀ v, (s.net.conn v).sock ≠ .accepted newSocket) ∧
        s' = s.follow { s.net with
          server := s.net.server.accept newSocket
          conn := Function.update s.net.conn () { s.net.conn () with sock := .accepted newSocket } } a) ∨
      ∃ r i c inp x, a = .server () r ∧ s.net.slot () = some i ∧ (s.net.conn ()).read r = some c ∧
        decode r = .ok inp ∧ V10.version.Handles s.net.server i inp x ∧ s' = s.follow (s.answered c inp x) a) := by
  obtain ⟨hwhole, h⟩ := Option.ite_none_right_eq_some.1 h
  obtain ⟨n, hn, rfl⟩ := Option.map_eq_some_iff.1 h
  refine ⟨hwhole, ?_⟩
  obtain ⟨_, act, e, c, rfl, he, hc, rfl⟩ | ⟨_, newSocket, rfl, hb, hpos, hfresh, rfl⟩ |
    ⟨_, r, i, c, inp, x, rfl, hi, hc, hd, hh, rfl⟩ := Net.step_cases hl hn
  · exact .inl ⟨act, e, c, rfl, he, hc, rfl⟩
  · exact .inr (.inl ⟨newSocket, rfl, hb, hpos, hfresh, rfl⟩)
  · exact .inr (.inr ⟨r, i, c, inp, x, rfl, hi, hc, hd, hh, rfl⟩)

theorem Kept.step {a : Label Unit} (h : s.Kept id) (hs : Tagged.step id s a = some s') (ht : s.Timely a) :
    s'.Kept id := by
  obtain ⟨hwhole, ⟨_, e, c, rfl, he, hc, rfl⟩ | ⟨_, rfl, hb, hpos, hfresh, rfl⟩ |
    ⟨r, i, c, inp, x, rfl, hi, hc, hd, hh, rfl⟩⟩ := step_cases h.legal hs
  · exact h.client he hc ht
  · exact h.accept hb hpos hfresh
  · exact h.server hi hc hd hh hwhole

/-- **A reply that is received when a call has begun too early** belongs to an earlier
    call. -/
theorem Kept.not_paired {a : Label Unit} (h : s.Kept id) (hs : Tagged.step id s a = some s')
    (ht : ¬ s.Timely a) : ¬ s'.Paired := by
  obtain ⟨-, ⟨act, e, c, rfl, he, hc, rfl⟩ | ⟨_, rfl, -⟩ | ⟨_, _, _, _, _, rfl, -⟩⟩ := step_cases h.legal hs
  swap
  · exact absurd trivial ht
  swap
  · exact absurd trivial ht
  cases act with
  | recv buf =>
    have hgo := h.going (Visitor.active_of_recv he)
    obtain ⟨⟨hne, -, hpre⟩, -⟩ := Option.ite_none_right_eq_some.1 hc
    rw [follow_client hc]
    have hsome : (s.net.conn ()).down ≠ [] := by
      intro hnil
      rw [hnil] at hpre
      exact hne (List.prefix_nil.1 (List.isPrefixOf_iff_prefix.1 hpre))
    obtain ⟨-, ⟨t, ts, hdown, hlt⟩ | ⟨hdown, -⟩⟩ := hgo.early (by simpa [Timely] using ht)
    · intro hp
      refine hlt.ne (congrArg Tag.serial (hp t ?_))
      obtain ⟨y, ys, hy⟩ := List.exists_cons_of_ne_nil hne
      obtain ⟨r, rs, hr⟩ := List.exists_cons_of_ne_nil hsome
      simp [hdown, Act.received, hy, hr, touched]
    · have hlen := hgo.down
      rw [hdown, List.length_nil] at hlen
      exact absurd (List.length_eq_zero_iff.1 hlen.symm) hsome
  | _ => exact absurd trivial ht

end Tagged

/-- **Replies and calls.**  In every run of the server and one visitor, all that the
    visitor receives are replies to the call in which it is, iff nothing is received
    after a call has begun while a reply to an earlier call was still to come. -/
theorem V10.paired_iff {id : CInt} {tr : List (Tagged × Label Unit)} {s : Tagged}
    (h : (V10.dialogue id).Exec tr s) :
    System.Always Tagged.Paired tr s ↔ ∀ x ∈ tr, x.1.Timely x.2 := by
  refine h.always_iff (J := Tagged.Kept id) ⟨?_, ?_⟩ (fun _ hs => hs.paired) ?_
  · rintro _ rfl; exact Tagged.kept_init id
  · exact fun s a s' hk hs => hk.step hs.1 hs.2
  · exact fun s a s' hk hs ht => hk.not_paired hs ht

/-- The visitor's `ENTER` is answered so late that it has been sent twice. -/
def entersTwice : List (Label Unit) :=
  [.client () .connect, .accept () 4, .client () (.draw 0), .client () .timeout, .client () (.draw 0),
    .server () (.data "1 ENTER -1".toList), .server () (.data "1 ENTER -1".toList)]

theorem V10.paired_iff_twice : ∃ (tr : List (Tagged × Label Unit)) (s : Tagged),
    s.down = [⟨1, .enter⟩, ⟨1, .enter⟩] ∧
      (System.Always Tagged.Paired tr s ↔ ∀ x ∈ tr, x.1.Timely x.2) := by
  obtain ⟨s, -, he, hs⟩ := System.exec_of_any .init (Tagged.step 1) entersTwice
    (fun s => s.down = [⟨1, .enter⟩, ⟨1, .enter⟩]) (by decide +kernel)
  exact ⟨_, s, of_decide_eq_true hs, @V10.paired_iff .one _ _ he⟩

/-- **The visitor takes a late `ENTER_OK` for the reply to its `VIEW`.** -/
theorem V10.enterOk_for_view : ∃ s, (V10.dialogue 1).Reachable s ∧
    System.runFn (Tagged.step 1) .init (entersTwice ++
      [.client () (.recv "ENTER_OK 1".toList), .client () (.draw 2), .client () (.draw 2),
        .client () (.recv "ENTER_OK 1".toList)]) = some s ∧
    s.current = ⟨2, .view 2⟩ ∧ s.taken = [⟨1, .enter⟩] ∧ ¬ s.Paired := by
  obtain ⟨s, hr, he, hs⟩ := System.exec_of_any .init (Tagged.step 1) (entersTwice ++
      [.client () (.recv "ENTER_OK 1".toList), .client () (.draw 2), .client () (.draw 2),
        .client () (.recv "ENTER_OK 1".toList)])
    (fun s => s.current = ⟨2, .view 2⟩ ∧ s.taken = [⟨1, .enter⟩]) (by decide +kernel)
  obtain ⟨h1, h2⟩ := of_decide_eq_true hs
  refine ⟨s, ⟨_, he⟩, hr, h1, h2, fun hp => ?_⟩
  have := hp ⟨1, .enter⟩ (by simp [h2])
  rw [h1] at this
  cases this

end Gallery
