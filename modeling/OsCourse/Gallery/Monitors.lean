/-
  The gallery of idz os 3/9 with visitors and monitors: when a visitor is sent the
  replies to its commands, and nothing else.
-/
import OsCourse.Gallery.Replies
import Mathlib.Data.List.Forall2

namespace Gallery

open Transition

/-! ## Networks that keep a record -/

/-- What the server has in its buffer after a read. -/
def Read.buffers : Read → List Text
  | .closed => []
  | .data buf => [buf]

/-- A network with the history of its connections. -/
structure Recorded (ι κ : Type) where
  net : Net ι κ
  /-- what the clients have sent -/
  said : ι → List Text
  /-- the buffers that the server has read -/
  heard : ι → List Text
  /-- what the server has sent -/
  told : ι → List Text

namespace Recorded
variable {ι κ : Type} [Fintype ι] [DecidableEq ι]

def init (start : ι → κ) : Recorded ι κ :=
  { net := .init start, said := fun _ => [], heard := fun _ => [], told := fun _ => [] }

/-- A step of the network, and what it puts on record. -/
def step (w : Version) (prog : ι → Program κ) (s : Recorded ι κ) (a : Label ι) : Option (Recorded ι κ) :=
  (Net.step w prog s.net a).map fun n =>
    match a with
    | .client u _ => { s with
        net := n
        said := Function.update s.said u (s.said u ++ (n.conn u).up.drop (s.net.conn u).up.length) }
    | .accept _ _ => { s with net := n }
    | .server u r => {
        net := n
        said := s.said
        heard := Function.update s.heard u (s.heard u ++ r.buffers)
        told := fun v => s.told v ++ (n.conn v).down.drop (s.net.conn v).down.length }

end Recorded

/-! ## Visitors and monitors -/

/-- What a client is. -/
inductive Role
  | visitor (id : CInt)
  | monitor

namespace Role

def start : Role → Visitor ⊕ Monitor
  | visitor _ => .inl .init
  | monitor => .inr .start

def program : Role → Program (Visitor ⊕ Monitor)
  | visitor id, .inl v, a => (Visitor.step V9.client id v a).map fun e => { e with state := .inl e.state }
  | monitor, .inr m, a => (Monitor.step m a).map fun e => { e with state := .inr e.state }
  | _, _, _ => none

end Role

/-- What the visitor `id` sends are messages of its calls. -/
theorem Visitor.sends_message {cw : ClientVersion} {id : ℤ} {v : Visitor} {a : Act} {e : Effect Visitor}
    (h : Visitor.step cw id v a = some e) : ∀ t ∈ e.sends, ∃ k : Call, t = k.message id := by
  intro t ht
  unfold Visitor.step at h
  split at h
  all_goals try split_ifs at h
  all_goals
    cases h
    try first
      | exact absurd ht List.not_mem_nil
      | exact ⟨_, List.mem_singleton.1 ht⟩

theorem Role.sends_message {id : CInt} {k : Visitor ⊕ Monitor} {a : Act} {e : Effect (Visitor ⊕ Monitor)}
    (h : (Role.visitor id).program k a = some e) : ∀ t ∈ e.sends, ∃ c : Call, t = c.message id := by
  cases k with
  | inl v =>
    obtain ⟨e', he', rfl⟩ := Option.map_eq_some_iff.1 h
    exact Visitor.sends_message (e := e') he'
  | inr m => cases h

/-! ## What a visitor is sent -/

/-- `r` is a reply to the command `buf` of the visitor `id`. -/
def Replies (id : ℤ) (buf r : Text) : Prop := ∃ k stay, buf = Call.message id k ∧ Answer id k r stay

/-- A reply is no status line: it begins with a letter. -/
theorem Answer.ne_statusText {id : ℤ} {k : Call} {r : Text} {stay : Stay} (h : Answer id k r stay)
    (s : Server) (t : Text) : r ≠ statusText s ++ t := by
  obtain ⟨word, hw, nums, rfl, -⟩ := h.word
  obtain ⟨c, l, hc, hd⟩ := Text.fmtInt_cons s.currentVisitors
  have hstatus : (statusText s ++ t).head? = some c := by
    simp [statusText, List.intercalate, List.finRange_succ, hc]
  intro he
  have hhead : ∀ word ∈ replyWords, ∃ a l, word = a :: l ∧ a ≠ '-' ∧ a.isDigit = false := by
    simp [replyWords]
  obtain ⟨a, l', rfl, ha, ha'⟩ := hhead word hw
  rw [← he] at hstatus
  obtain rfl := Option.some.inj hstatus
  rcases hd with hd | hd
  · exact ha hd
  · rw [ha'] at hd; cases hd

/-- No status line is among the replies. -/
theorem noStatus_of_replies {id : ℤ} {heard told : List Text} (h : List.Forall₂ (Replies id) heard told) :
    ∀ t ∈ told, ∀ server : Server, t ≠ statusText server ++ V9.version.statusEnd := by
  induction h with
  | nil => exact fun t ht => absurd ht List.not_mem_nil
  | cons hr _ ih =>
    intro t ht server
    obtain ⟨k, stay, -, ha⟩ := hr
    rcases List.mem_cons.1 ht with rfl | ht
    · exact ha.ne_statusText server _
    · exact ih t ht server

variable {ι : Type}

/-- The visitors are sent the replies to their commands and nothing else: the server
    has read what they sent, in order, and has sent one reply to each command; and
    it has sent them no status line. -/
structure Recorded.Undisturbed {κ : Type} (role : ι → Role) (s : Recorded ι κ) : Prop where
  heard : ∀ u id, role u = .visitor id → s.heard u <+: s.said u
  told : ∀ u id, role u = .visitor id → List.Forall₂ (Replies id) (s.heard u) (s.told u)
  noStatus : ∀ u id, role u = .visitor id → ∀ t ∈ s.told u,
    ∀ server : Server, t ≠ statusText server ++ V9.version.statusEnd

namespace Recorded
variable {κ : Type}

/-- The steps that disturb no visitor: the commands of the visitors are read one by
    one and whole, a visitor that leaves a painting is at one, and the status line
    is sent while no visitor is on a slot that is marked as that of a monitor. -/
def Undisturbing (role : ι → Role) (s : Recorded ι κ) : Label ι → Prop
  | .server u r => ∀ i inp, s.net.slot u = some i → decode r = .ok inp →
      ((∃ id, role u = .visitor id) → (∀ buf, r = .data buf → (s.net.conn u).up.head? = some buf) ∧
        ∀ id n, inp = .command id (some .leavePainting) n → (s.net.server.clients i).currentPainting ≠ -1) ∧
      (s.net.server.Announces i inp → ∀ v j, (∃ id, role v = .visitor id) → s.net.slot v = some j →
        (inp = .closed → v ≠ u) → (s.net.server.clients j).isMonitor = false)
  | _ => True

/-- What else holds as long as no visitor is disturbed: what the visitors have sent
    are commands, and those that the server has not read are on the way. -/
structure Kept [DecidableEq ι] (role : ι → Role) (s : Recorded ι κ) : Prop where
  legal : s.net.server.Legal
  wired : s.net.Wired
  calls : ∀ u id, role u = .visitor id → ∀ t ∈ (s.net.conn u).up, ∃ k : Call, t = k.message id
  pending : ∀ u id, role u = .visitor id → (s.net.conn u).sock ≠ .finished →
    s.said u = s.heard u ++ (s.net.conn u).up
  undisturbed : s.Undisturbed role

variable [DecidableEq ι]

theorem kept_init (role : ι → Role) (start : ι → κ) : (Recorded.init start).Kept role where
  legal := Server.legal_init
  wired := Net.wired_init start
  calls _ _ _ _ ht := absurd ht List.not_mem_nil
  pending _ _ _ _ := rfl
  undisturbed := ⟨fun _ _ _ => List.prefix_rfl, fun _ _ _ => .nil, fun _ _ _ _ ht => absurd ht List.not_mem_nil⟩

/-- The handler has handled a message of `u`. -/
def handled (s : Recorded ι κ) (u : ι) (r : Read) (c : Conn) (inp : Input) (x : Reaction) : Recorded ι κ where
  net := { server := x.server
           proc := s.net.proc
           conn := fun v => (Function.update s.net.conn u c v).deliver x.sends
           log := ⟨u, inp, x.response⟩ :: s.net.log }
  said := s.said
  heard := Function.update s.heard u (s.heard u ++ r.buffers)
  told v := s.told v ++ (Function.update s.net.conn u c v).news x.sends

variable {w : Version} {prog : ι → Program κ} {s s' : Recorded ι κ}

/-- **The steps, with what they put on record.** -/
theorem step_cases [Fintype ι] {a : Label ι} (hl : s.net.server.Legal) (h : Recorded.step w prog s a = some s') :
    (∃ u act e c, a = .client u act ∧ prog u (s.net.proc u) act = some e ∧ (s.net.conn u).call act = some c ∧
      s' = { s with
        net := { s.net with proc := Function.update s.net.proc u e.state
                            conn := Function.update s.net.conn u (c.push e) }
        said := Function.update s.said u (s.said u ++ e.sends) }) ∨
    (∃ u newSocket, a = .accept u newSocket ∧ (s.net.conn u).sock = .backlog ∧ 0 < newSocket ∧
      (∀ v, (s.net.conn v).sock ≠ .accepted newSocket) ∧
      s' = { s with net := { s.net with
        server := s.net.server.accept newSocket
        conn := Function.update s.net.conn u { s.net.conn u with sock := .accepted newSocket } } }) ∨
    ∃ u r i c inp x, a = .server u r ∧ s.net.slot u = some i ∧ (s.net.conn u).read r = some c ∧
      decode r = .ok inp ∧ w.Handles s.net.server i inp x ∧ s' = s.handled u r c inp x := by
  obtain ⟨n, hn, rfl⟩ := Option.map_eq_some_iff.1 h
  obtain ⟨u, act, e, c, rfl, he, hc, rfl⟩ | ⟨u, newSocket, rfl, hb, hpos, hfresh, rfl⟩ |
    ⟨u, r, i, c, inp, x, rfl, hi, hc, hd, hh, rfl⟩ := Net.step_cases hl hn
  · refine .inl ⟨u, act, e, c, rfl, he, hc, ?_⟩
    simp [Conn.push, (Conn.call_spec hc).1]
  · exact .inr (.inl ⟨u, newSocket, rfl, hb, hpos, hfresh, rfl⟩)
  · refine .inr (.inr ⟨u, r, i, c, inp, x, rfl, hi, hc, hd, hh, ?_⟩)
    have hdown : ∀ v, (Function.update s.net.conn u c v).down = (s.net.conn v).down := by
      intro v
      by_cases hv : v = u
      · subst hv; simpa using Conn.read_down hc
      · simp [hv]
    simp [handled, Conn.deliver_eq, hdown]

/-- **A step of a client disturbs nobody.** -/
theorem Kept.client {role : ι → Role} {s : Recorded ι (Visitor ⊕ Monitor)} (h : s.Kept role) {u : ι} {a : Act}
    {e : Effect (Visitor ⊕ Monitor)} {c : Conn} (he : (role u).program (s.net.proc u) a = some e)
    (hc : (s.net.conn u).call a = some c) :
    Kept role { s with
      net := { s.net with proc := Function.update s.net.proc u e.state
                          conn := Function.update s.net.conn u (c.push e) }
      said := Function.update s.said u (s.said u ++ e.sends) } := by
  have hup : (c.push e).up = (s.net.conn u).up ++ e.sends := by simp [Conn.push, (Conn.call_spec hc).1]
  refine ⟨h.legal, h.wired.client u (by simpa [Conn.push] using Conn.call_sock hc), ?_,
    ?_, ?_, h.undisturbed.told, h.undisturbed.noStatus⟩
  · intro v id hv t ht
    by_cases hvu : v = u
    · subst hvu
      simp only [Function.update_self, hup] at ht
      rcases List.mem_append.1 ht with ht | ht
      · exact h.calls v id hv t ht
      · exact Role.sends_message (hv ▸ he) t ht
    · simp only [ne_eq, hvu, not_false_eq_true, Function.update_of_ne] at ht
      exact h.calls v id hv t ht
  · intro v id hv hsock
    by_cases hvu : v = u
    · subst hvu
      simp only [Function.update_self] at hsock ⊢
      have hsock : (s.net.conn v).sock ≠ .finished := by
        rcases Conn.call_sock hc with hs | ⟨hs, -⟩
        · rwa [← hs]
        · rw [hs]; exact Sock.noConfusion
      rw [hup, h.pending v id hv hsock, List.append_assoc]
    · simp only [ne_eq, hvu, not_false_eq_true, Function.update_of_ne] at hsock ⊢
      exact h.pending v id hv hsock
  · intro v id hv
    by_cases hvu : v = u
    · subst hvu
      simp only [Function.update_self]
      exact (h.undisturbed.heard v id hv).trans (List.prefix_append _ _)
    · simpa [hvu] using h.undisturbed.heard v id hv

theorem Kept.accept {role : ι → Role} (h : s.Kept role) {u : ι} {newSocket : ℤ}
    (hb : (s.net.conn u).sock = .backlog) (hpos : 0 < newSocket)
    (hfresh : ∀ v, (s.net.conn v).sock ≠ .accepted newSocket) :
    Kept role { s with net := { s.net with
      server := s.net.server.accept newSocket
      conn := Function.update s.net.conn u { s.net.conn u with sock := .accepted newSocket } } } := by
  have key : ∀ v, (Function.update s.net.conn u { s.net.conn u with sock := .accepted newSocket } v).up =
      (s.net.conn v).up ∧ ((s.net.conn v).sock = .finished →
        (Function.update s.net.conn u { s.net.conn u with sock := .accepted newSocket } v).sock = .finished) := by
    intro v
    by_cases hvu : v = u
    · subst hvu; simp [hb]
    · simp [hvu]
  refine ⟨h.legal.accept _, h.wired.accept hb hpos hfresh, ?_, ?_,
    ⟨h.undisturbed.heard, h.undisturbed.told, h.undisturbed.noStatus⟩⟩
  · intro v id hv t ht
    exact h.calls v id hv t ((key v).1 ▸ ht)
  · intro v id hv hsock
    dsimp only
    rw [(key v).1]
    exact h.pending v id hv fun hf => hsock ((key v).2 hf)

section Message
variable {role : ι → Role} {u : ι} {i : Slot} {r : Read} {c : Conn} {inp : Input} {x : Reaction}

/-- A whole command of a visitor is read as a command. -/
theorem Kept.reads (h : s.Kept role) {id : CInt} (hu : role u = .visitor id) {buf : Text}
    (hhead : (s.net.conn u).up.head? = some buf) : ∃ k : Call, buf = k.message id ∧
      ∃ rest, (s.net.conn u).up = buf :: rest := by
  obtain ⟨rest, hup⟩ := List.head?_eq_some_iff.1 hhead
  obtain ⟨k, hk⟩ := h.calls u id hu buf (by simp [hup])
  exact ⟨k, hk, rest, hup⟩

theorem Kept.told_length (h : s.Kept role) {v : ι} {id : CInt} (hv : role v = .visitor id)
    (hs : (s.handled u r c inp x).Undisturbed role) :
    ((Function.update s.net.conn u c v).news x.sends).length = if v = u then r.buffers.length else 0 := by
  have h1 := (h.undisturbed.told v id hv).length_eq
  have h2 := (hs.told v id hv).length_eq
  simp only [handled, List.length_append] at h2
  split_ifs with hvu
  · subst hvu
    simp only [Function.update_self, List.length_append] at h2 ⊢
    omega
  · simp only [ne_eq, hvu, not_false_eq_true, Function.update_of_ne] at h2 ⊢
    omega

/-- The connection of `u` is that to which the handler replies. -/
theorem Kept.replies_to (h : s.Kept role) (hi : s.net.slot u = some i) (hc : (s.net.conn u).read r = some c)
    (hd : decode r = .ok inp) (hh : w.Handles s.net.server i inp x) {v : ι} :
    ((Function.update s.net.conn u c v).sock = .accepted (s.net.server.clients i).fd ∧ x.response ≠ []) ↔
      v = u ∧ x.response ≠ [] := by
  refine and_congr_left fun hr => ?_
  have hu := Net.slot_eq_some hi
  by_cases hvu : v = u
  · subst hvu
    have hinp : inp ≠ .closed := by rintro rfl; cases hh; exact hr rfl
    simp [Conn.read_sock hc hd, hinp, hu]
  · simp only [ne_eq, hvu, not_false_eq_true, Function.update_of_ne, iff_false]
    exact fun hv => hvu (h.wired.inj hv hu)

/-- **A message that disturbs no visitor.** -/
theorem Kept.server (h : s.Kept role) (hi : s.net.slot u = some i) (hc : (s.net.conn u).read r = some c)
    (hd : decode r = .ok inp) (hh : V9.version.Handles s.net.server i inp x)
    (hq : s.Undisturbing role (.server u r)) : (s.handled u r c inp x).Kept role := by
  obtain ⟨hturn, hmark⟩ := hq i inp hi hd
  have hsock := Conn.read_sock hc hd
  have hnews : ∀ v id, role v = .visitor id → (Function.update s.net.conn u c v).news x.sends =
      if v = u ∧ x.response ≠ [] then [x.response] else [] := by
    intro v id hv
    rw [Conn.news_of_quiet hh fun ha => ?_, if_congr (h.replies_to hi hc hd hh) rfl rfl]
    refine (h.wired.news_broadcastStatus hi hh hsock ?_).2 fun j hj hcl => hmark ha v j ⟨id, hv⟩ hj hcl
    rintro rfl rfl
    cases r with
    | closed => cases hd
    | data buf =>
      obtain ⟨k, rfl, -⟩ := h.reads hv ((hturn ⟨id, hv⟩).1 buf rfl)
      rw [decode_message] at hd; cases hd
  have key : ∀ v id, role v = .visitor id →
      (∀ t ∈ ((s.handled u r c inp x).net.conn v).up, ∃ k : Call, t = k.message id) ∧
      (((s.handled u r c inp x).net.conn v).sock ≠ .finished → (s.handled u r c inp x).said v =
        (s.handled u r c inp x).heard v ++ ((s.handled u r c inp x).net.conn v).up) ∧
      (s.handled u r c inp x).heard v <+: (s.handled u r c inp x).said v ∧
      List.Forall₂ (Replies id) ((s.handled u r c inp x).heard v) ((s.handled u r c inp x).told v) := by
    intro v id hv
    have hcalls := h.calls v id hv
    have hpend := h.pending v id hv
    have hheard := h.undisturbed.heard v id hv
    have htold := h.undisturbed.told v id hv
    simp only [handled, Conn.deliver_eq, hnews v id hv]
    by_cases hvu : v = u
    swap
    · simp only [ne_eq, hvu, not_false_eq_true, Function.update_of_ne, false_and, if_false, List.append_nil]
      exact ⟨hcalls, hpend, hheard, htold⟩
    subst hvu
    cases r with
    | closed =>
      obtain ⟨-, hc⟩ := Option.ite_none_right_eq_some.1 hc
      obtain rfl := Option.some.inj hc
      obtain rfl := Except.ok.inj hd
      cases hh with
      | closed => simpa [Read.buffers] using ⟨hheard, htold⟩
    | data buf =>
      obtain ⟨k, rfl, rest, hup⟩ := h.reads hv ((hturn ⟨id, hv⟩).1 buf rfl)
      obtain rfl := Except.ok.inj ((decode_message id k).symm.trans hd)
      obtain ⟨-, hc⟩ := Option.ite_none_right_eq_some.1 hc
      obtain rfl := Option.some.inj hc
      obtain ⟨stay, ha⟩ := hh.answer fun hk => (hturn ⟨id, hv⟩).2 _ _ (by rw [hk])
      have hsaid := hpend (by simp [Net.slot_eq_some hi])
      rw [hup] at hcalls hsaid
      simp only [Function.update_self, Read.buffers, hup, dropBytes_length (message_ne_nil _ _),
        ha.ne_nil, ne_eq, not_false_eq_true, and_self, if_true]
      refine ⟨fun t ht => hcalls t (List.mem_cons_of_mem _ ht), fun _ => by rw [hsaid]; simp, ?_, ?_⟩
      · rw [hsaid]; exact ⟨rest, by simp⟩
      · exact List.rel_append htold (.cons ⟨k, stay, rfl, ha⟩ .nil)
  exact ⟨hh.legal V9.tidy h.legal, h.wired.server _ hi hh hsock, fun v id hv => (key v id hv).1,
    fun v id hv => (key v id hv).2.1, ⟨fun v id hv => (key v id hv).2.2.1, fun v id hv => (key v id hv).2.2.2,
      fun v id hv => noStatus_of_replies (key v id hv).2.2.2⟩⟩

/-- **A message after which no visitor is disturbed** has disturbed none. -/
theorem Kept.undisturbing (h : s.Kept role) (hi : s.net.slot u = some i) (hc : (s.net.conn u).read r = some c)
    (hd : decode r = .ok inp) (hh : V9.version.Handles s.net.server i inp x)
    (hs : (s.handled u r c inp x).Undisturbed role) : s.Undisturbing role (.server u r) := by
  have hsock := Conn.read_sock hc hd
  intro i' inp' hi' hd'
  obtain rfl := Option.some.inj (hi.symm.trans hi')
  obtain rfl := Except.ok.inj (hd.symm.trans hd')
  have hwhole : ∀ id, role u = .visitor id → ∀ buf, r = .data buf → (s.net.conn u).up.head? = some buf := by
    rintro id hu buf rfl
    have hpre := hs.heard u id hu
    simp only [handled, Function.update_self, Read.buffers] at hpre
    rw [h.pending u id hu (by simp [Net.slot_eq_some hi]), List.prefix_append_right_inj] at hpre
    obtain ⟨rest, hup⟩ := hpre
    simp [← hup]
  refine ⟨fun ⟨id, hu⟩ => ⟨hwhole id hu, ?_⟩, ?_⟩
  · rintro id' n rfl hp
    have hlen := h.told_length hu hs
    cases hh with
    | left hp' => exact hp' hp
    | notLeft =>
      cases r with
      | closed => cases hd
      | data buf => simp [Version.silent, Conn.news, Read.buffers] at hlen
  · intro ha v j hv hj hcl
    obtain ⟨id, hv⟩ := hv
    have hlen := h.told_length hv hs
    rw [Conn.length_news hh ha, if_congr (h.replies_to hi hc hd hh) rfl rfl] at hlen
    by_cases hvu : v = u
    · subst hvu
      cases r with
      | closed => exact absurd rfl (hcl (Except.ok.inj hd).symm)
      | data buf =>
        obtain ⟨k, rfl, -⟩ := h.reads hv (hwhole id hv buf rfl)
        obtain rfl := Except.ok.inj ((decode_message id k).symm.trans hd)
        obtain ⟨stay, hans⟩ := hh.answer fun hk => by rw [hk] at ha; exact ha
        refine (h.wired.news_broadcastStatus hi hh hsock (by simp)).1 (List.length_eq_zero_iff.1 ?_) j hj hcl
        simpa [hans.ne_nil, Read.buffers] using hlen
    · refine (h.wired.news_broadcastStatus hi hh hsock fun _ => hvu).1 (List.length_eq_zero_iff.1 ?_) j hj hcl
      simpa [hvu] using hlen

end Message

end Recorded

variable [Fintype ι] [DecidableEq ι]

/-- The server with visitors and monitors. -/
def V9.gallery (role : ι → Role) : System (Recorded ι (Visitor ⊕ Monitor)) (Label ι) :=
  .ofFn (.init fun u => (role u).start) (Recorded.step V9.version fun u => (role u).program)

/-- **Monitors and visitors.**  In every run of the server with any visitors and
    monitors, the visitors are sent the replies to their commands and nothing else,
    iff no step of the run disturbs a visitor. -/
theorem V9.undisturbed_iff {role : ι → Role} {tr : List (Recorded ι (Visitor ⊕ Monitor) × Label ι)}
    {s : Recorded ι (Visitor ⊕ Monitor)} (h : (V9.gallery role).Exec tr s) :
    System.Always (Recorded.Undisturbed role) tr s ↔ ∀ x ∈ tr, x.1.Undisturbing role x.2 := by
  refine h.always_iff (J := Recorded.Kept role) ⟨?_, ?_⟩ (fun _ hs => hs.undisturbed) ?_
  · rintro _ rfl; exact Recorded.kept_init role _
  · rintro s a s' hk ⟨hs, hq⟩
    obtain ⟨u, _, _, _, rfl, he, hc, rfl⟩ | ⟨_, _, rfl, hb, hpos, hfresh, rfl⟩ |
      ⟨u, r, i, _, inp, x, rfl, hi, hc, hd, hh, rfl⟩ := Recorded.step_cases hk.legal hs
    · exact hk.client he hc
    · exact hk.accept hb hpos hfresh
    · exact hk.server hi hc hd hh hq
  · rintro s a s' hk hs hq hu
    obtain ⟨_, _, _, _, rfl, -⟩ | ⟨_, _, rfl, -⟩ | ⟨u, r, i, _, inp, x, rfl, hi, hc, hd, hh, rfl⟩ :=
      Recorded.step_cases hk.legal hs
    · exact hq trivial
    · exact hq trivial
    · exact hq (hk.undisturbing hi hc hd hh hu)

/-- A monitor registers. -/
def monitorComes : List (Label Bool) :=
  [.client true .connect, .accept true 4, .client true (.draw 0), .server true (.data "MONITOR".toList)]

/-- A visitor enters. -/
def visitorComes (newSocket : ℤ) : List (Label Bool) :=
  [.client false .connect, .accept false newSocket, .client false (.draw 0),
    .server false (.data "1 ENTER -1".toList)]

/-- The visitor 1 and a monitor. -/
def oneOfEach (u : Bool) : Role := if u then .monitor else .visitor .one

theorem V9.undisturbed_iff_monitor : ∃ (tr : List (Recorded Bool (Visitor ⊕ Monitor) × Label Bool))
    (s : Recorded Bool (Visitor ⊕ Monitor)), s.told false = ["ENTER_OK 1".toList] ∧
      (System.Always (Recorded.Undisturbed oneOfEach) tr s ↔ ∀ x ∈ tr, x.1.Undisturbing oneOfEach x.2) := by
  obtain ⟨s, -, he, hs⟩ := System.exec_of_any (.init fun u => (oneOfEach u).start)
    (Recorded.step V9.version fun u => (oneOfEach u).program) (monitorComes ++ visitorComes 5)
    (fun s => s.told false = ["ENTER_OK 1".toList]) (by decide +kernel)
  exact ⟨_, s, of_decide_eq_true hs, V9.undisturbed_iff he⟩

/-- **A visitor is sent a status line**: a monitor disconnects, the next client on its
    slot is a visitor, and its `ENTER` is answered with the status line first. -/
theorem V9.visitor_on_monitor_slot : ∃ s, (V9.gallery oneOfEach).Reachable s ∧
    System.runFn (Recorded.step V9.version fun u => (oneOfEach u).program)
      (.init fun u => (oneOfEach u).start)
      (monitorComes ++ [.client true .kill, .server true .closed] ++ visitorComes 4) = some s ∧
    s.said false = ["1 ENTER -1".toList] ∧ s.told false = ["1 0 0 0 0 0 ".toList, "ENTER_OK 1".toList] ∧
    ¬ s.Undisturbed oneOfEach := by
  obtain ⟨s, hr, he, hs⟩ := System.exec_of_any (.init fun u => (oneOfEach u).start)
    (Recorded.step V9.version fun u => (oneOfEach u).program)
    (monitorComes ++ [.client true .kill, .server true .closed] ++ visitorComes 4)
    (fun s => s.said false = ["1 ENTER -1".toList] ∧ s.heard false = ["1 ENTER -1".toList] ∧
      s.told false = ["1 0 0 0 0 0 ".toList, "ENTER_OK 1".toList]) (by decide +kernel)
  obtain ⟨h1, h2, h3⟩ := of_decide_eq_true hs
  refine ⟨s, ⟨_, he⟩, hr, h1, h3, fun hu => ?_⟩
  have := (hu.told false _ rfl).length_eq
  simp [h2, h3] at this

end Gallery
