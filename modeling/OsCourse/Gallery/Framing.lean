/-
  The gallery server of idz os 3/10: the commands of a connection have no
  delimiter, and when the server nevertheless reads them as they were sent.
-/
import OsCourse.Gallery.Service
import OsCourse.Gallery.Dialogue
import Mathlib.Data.List.Chain
import Mathlib.Data.List.SplitLengths

namespace Gallery

open Transition

/-! ## Reading a stream -/

/-- A command as a client sends it. -/
structure Command where
  id : ℤ
  call : Call
  deriving DecidableEq

def Command.text (c : Command) : Text := c.call.message c.id

/-- What the server is to make of it. -/
def Command.input (c : Command) : Input := .command c.id (some c.call.action) c.call.number

/-- The server reads the buffers `bs` from slot `i`: what it executes, and its
    state afterwards. -/
def Version.serveReads (w : Version) (i : Slot) : Server → List Text → Except Fault (List Input × Server)
  | s, [] => .ok ([], s)
  | s, b :: bs => (decode (.data b)).bind fun inp => (w.react s i inp).bind fun r =>
    (serveReads w i r.server bs).map fun l => (if inp = .ignored then l.1 else inp :: l.1, l.2)

theorem Version.serveReads_cons {w : Version} {i : Slot} {s s' : Server} {b : Text} {bs : List Text}
    {l : List Input} (h : w.serveReads i s (b :: bs) = .ok (l, s')) :
    ∃ inp r l', decode (.data b) = .ok inp ∧ w.react s i inp = .ok r ∧
      w.serveReads i r.server bs = .ok (l', s') ∧ l = if inp = .ignored then l' else inp :: l' := by
  rw [serveReads] at h
  cases hd : decode (.data b) with
  | error f => rw [hd] at h; cases h
  | ok inp =>
    cases hr : w.react s i inp with
    | error f => simp [hd, Except.bind, hr] at h
    | ok r =>
      cases hs : w.serveReads i r.server bs with
      | error f => simp [hd, Except.bind, hr, hs, Except.map] at h
      | ok l' =>
        simp only [hd, Except.bind, hr, hs, Except.map, Except.ok.injEq, Prod.mk.injEq] at h
        exact ⟨inp, r, l'.1, rfl, hr, by rw [← h.2, hs], h.1.symm⟩

/-- Commands that arrive in reads of their own are executed one by one. -/
theorem Version.serveReads_texts {w : Version} (hw : w.Tidy) (i : Slot) :
    ∀ (cmds : List Command) {s : Server}, s.Legal → (∀ c ∈ cmds, IsInt c.id) →
      ∃ s', w.serveReads i s (cmds.map Command.text) = .ok (cmds.map Command.input, s')
  | [], s, _, _ => ⟨s, rfl⟩
  | c :: cmds, s, hs, hid => by
    have hd : decode (.data c.text) = .ok c.input :=
      decode_commandText _ (hid c (List.mem_cons_self ..)) (isInt_number c.call)
    obtain ⟨r, hr, hh⟩ := w.react_spec (hs i) c.input
    obtain ⟨s', hs'⟩ := serveReads_texts hw i cmds (hh.legal hw hs)
      fun c' hc' => hid c' (List.mem_cons_of_mem c hc')
    refine ⟨s', ?_⟩
    rw [List.map_cons, serveReads, hd, Except.bind, hr, Except.bind, hs', Except.map, if_neg (by simp [Command.input])]
    rfl

/-! ## Where a command may begin -/

/-- No digit is followed at once by a capital letter: a number and the name of an
    action are never put together. -/
def Tight (t : Text) : Prop := t.IsChain fun a b => ¬ (a.isDigit = true ∧ b.isUpper = true)

theorem tight_of_not_upper {t : Text} (h : ∀ c ∈ t, c.isUpper = false) : Tight t := by
  refine List.isChain_iff_forall_rel_of_append_cons_cons.2 fun a b l₁ l₂ he hab => ?_
  have := h b (by simp [he])
  rw [this] at hab; cases hab.2

theorem tight_of_not_digit {t : Text} (h : ∀ c ∈ t, c.isDigit = false) : Tight t := by
  refine List.isChain_iff_forall_rel_of_append_cons_cons.2 fun a b l₁ l₂ he hab => ?_
  have := h a (by simp [he])
  rw [this] at hab; cases hab.1

theorem Tight.append {t u : Text} (ht : Tight t) (hu : Tight u)
    (h : ∀ c ∈ u.head?, c.isUpper = false) : Tight (t ++ u) := by
  refine List.isChain_append.2 ⟨ht, hu, fun a _ b hb hab => ?_⟩
  rw [h b hb] at hab; cases hab.2

theorem tight_commandText (id : ℤ) (a : Action) (n : ℤ) : Tight (commandText id a n) := by
  have hnum : ∀ n : ℤ, Tight (Text.fmtInt n) := fun n => tight_of_not_upper fun _ => Text.isUpper_of_mem_fmtInt
  have hname : Tight (' ' :: a.name) := tight_of_not_digit fun c hc => by
    rcases List.mem_cons.1 hc with rfl | hc
    · rfl
    · exact Action.isDigit_name hc
  have hend : Tight (' ' :: Text.fmtInt n) :=
    Tight.append (t := [' ']) (by simp [Tight]) (hnum n)
      fun c hc => Text.isUpper_of_mem_fmtInt (List.mem_of_mem_head? hc)
  have : Tight (' ' :: a.name ++ ' ' :: Text.fmtInt n) := hname.append hend (by simp)
  exact (hnum id).append this (by simp)

theorem tight_stream : ∀ cmds : List Command, Tight (cmds.map Command.text).flatten
  | [] => List.isChain_nil
  | c :: cmds => by
    refine (tight_commandText ..).append (tight_stream cmds) fun d hd => ?_
    -- the next command begins with a number
    rcases cmds with _ | ⟨c', cmds⟩
    · simp at hd
    · obtain ⟨e, u, he, -⟩ := Text.fmtInt_cons c'.id
      have hd' : d = e := by
        simpa [Command.text, Call.message, commandText, he, eq_comm] using hd
      exact Text.isUpper_of_mem_fmtInt (n := c'.id) (by rw [he, hd']; simp)

/-! ## The length of a read -/

theorem scanCommand_spec {t w : Text} {id n : ℤ} (h : scanCommand t = .ok (some (id, w, n))) :
    ∃ t₁ t₂ t₃, Text.scanInt t = some (id, t₁) ∧ Text.scanWord t₁ = some (w, t₂) ∧
      Text.scanInt t₂ = some (n, t₃) := by
  unfold scanCommand storeInt at h
  cases h1 : Text.scanInt t with
  | none => rw [h1] at h; cases h
  | some r1 =>
    obtain ⟨id', t₁⟩ := r1
    rw [h1] at h
    by_cases hid : IsInt id'
    · simp only [if_pos hid, Except.bind] at h
      cases h2 : Text.scanWord t₁ with
      | none => rw [h2] at h; cases h
      | some r2 =>
        obtain ⟨w', t₂⟩ := r2
        rw [h2] at h
        simp only at h
        split_ifs at h
        cases h3 : Text.scanInt t₂ with
        | none => rw [h3] at h; cases h
        | some r3 =>
          obtain ⟨n', t₃⟩ := r3
          rw [h3] at h
          by_cases hn : IsInt n'
          · simp only [if_pos hn, Except.map, Except.ok.injEq, Option.some.injEq, Prod.mk.injEq] at h
            obtain ⟨rfl, rfl, rfl⟩ := h
            exact ⟨t₁, t₂, t₃, rfl, h2, h3⟩
          · simp [if_neg hn, Except.map] at h
    · simp [if_neg hid, Except.bind] at h

theorem Action.name_of_ofText {w : Text} {a : Action} (h : Action.ofText w = some a) : w = a.name := by
  unfold Action.ofText at h
  split_ifs at h with h1 h2 h3 h4
  all_goals obtain rfl := Option.some.inj h; assumption

theorem Action.name_cons (a : Action) : ∃ c u, a.name = c :: u ∧ c.isUpper = true := by
  cases a
  · exact ⟨'E', _, rfl, by decide⟩
  · exact ⟨'V', _, rfl, by decide⟩
  · exact ⟨'L', _, rfl, by decide⟩
  · exact ⟨'E', _, rfl, by decide⟩

/-- **A read that is executed is at least as long as the command**: both blanks
    are there, and the numbers have at least the digits that are written. -/
theorem length_of_decode {b : Text} {id n : ℤ} {a : Action} (hb : Tight b)
    (h : decode (.data b) = .ok (.command id (some a) n)) : (commandText id a n).length ≤ b.length := by
  obtain ⟨w, hscan, hw⟩ : ∃ w, scanCommand (Text.cstr b) = .ok (some (id, w, n)) ∧ Action.ofText w = some a := by
    simp only [decode] at h
    cases hs : scanCommand (Text.cstr b) with
    | error f => rw [hs] at h; cases h
    | ok r =>
      rw [hs] at h
      rcases r with _ | ⟨id', w, n'⟩
      · simp only [Except.map, Except.ok.injEq] at h; split_ifs at h
      · simp only [Except.map, Except.ok.injEq, Input.command.injEq] at h
        exact ⟨w, by rw [h.1, h.2.2], h.2.1⟩
  obtain ⟨t₁, t₂, t₃, h1, h2, h3⟩ := scanCommand_spec hscan
  obtain rfl := Action.name_of_ofText hw
  obtain ⟨num, d, e1, hd, l1⟩ := Text.scanInt_spec h1
  obtain ⟨e2, hend⟩ := Text.scanWord_spec h2
  obtain ⟨num', d', e3, -, l3⟩ := Text.scanInt_spec h3
  have htight : Tight (Text.cstr b) := List.IsChain.infix hb (List.takeWhile_prefix _).isInfix
  have hlen : (Text.cstr b).length ≤ b.length := (List.takeWhile_prefix _).length_le
  -- a blank before the name: without it the name would follow a digit
  have hs1 : t₁.takeWhile Text.isSpace ≠ [] := by
    intro hnil
    obtain ⟨c, u, hc, hup⟩ := a.name_cons
    rw [hnil, List.nil_append, hc] at e2
    rw [e2] at e1
    rw [Tight, e1, ← List.append_assoc] at htight
    exact (List.isChain_append_cons_cons.1 htight).2.1 ⟨hd, hup⟩
  -- a blank before the number: the word goes up to it
  have hs3 : t₂.takeWhile Text.isSpace ≠ [] := by
    intro hnil
    rw [hnil, List.nil_append] at e3
    rcases t₂ with _ | ⟨c, u⟩
    · simp at e3
    · have := hend c rfl
      simp [this] at hnil
  have k1 := congrArg List.length e1
  have k2 := congrArg List.length e2
  have k3 := congrArg List.length e3
  have p1 := List.length_pos_iff.2 hs1
  have p3 := List.length_pos_iff.2 hs3
  simp only [List.length_append, List.length_cons] at k1 k2 k3
  simp only [commandText, List.length_append, List.length_cons]
  omega

/-! ## The reads of a stream -/

theorem length_flatten_congr {as bs : List Text} (h : as.map List.length = bs.map List.length) :
    as.flatten.length = bs.flatten.length := by
  rw [List.length_flatten, List.length_flatten, h]

/-- Reads that execute exactly `cmds` are as long as the commands one by one, or
    longer in all. -/
theorem lengths_of_serveReads {w : Version} {i : Slot} : ∀ {bs : List Text} {cmds : List Command} {s s' : Server},
    (∀ b ∈ bs, b ≠ [] ∧ Tight b) → w.serveReads i s bs = .ok (cmds.map Command.input, s') →
      bs.map List.length = (cmds.map Command.text).map List.length ∨
        (cmds.map Command.text).flatten.length < bs.flatten.length
  | [], cmds, s, s', _, h => by
    obtain rfl : cmds = [] := by
      simp only [Version.serveReads, Except.ok.injEq, Prod.mk.injEq] at h
      simpa using h.1.symm
    exact .inl rfl
  | b :: bs, cmds, s, s', hbs, h => by
    obtain ⟨hne, htight⟩ := hbs b (List.mem_cons_self ..)
    have hbs' : ∀ b ∈ bs, b ≠ [] ∧ Tight b := fun b hb => hbs b (List.mem_cons_of_mem _ hb)
    have hpos := List.length_pos_iff.2 hne
    obtain ⟨inp, r, l, hd, -, hr, hl⟩ := Version.serveReads_cons h
    by_cases hinp : inp = .ignored
    · -- a read that is ignored makes the reads longer than the commands
      rw [if_pos hinp] at hl
      rw [← hl] at hr
      right
      rcases lengths_of_serveReads hbs' hr with he | hlt
      · have hlen := length_flatten_congr he
        rw [List.flatten_cons, List.length_append]
        omega
      · rw [List.flatten_cons, List.length_append]
        omega
    · rw [if_neg hinp] at hl
      rcases cmds with _ | ⟨c, cmds⟩
      · cases hl
      · obtain ⟨rfl, rfl⟩ := List.cons.inj hl
        have hlen : c.text.length ≤ b.length := length_of_decode htight hd
        simp only [List.map_cons, List.flatten_cons, List.length_append]
        rcases lengths_of_serveReads hbs' hr with he | hlt
        · have hrest := length_flatten_congr he
          rcases hlen.eq_or_lt with heq | hlt
          · exact .inl (by rw [heq, he])
          · right; omega
        · right; omega

/-- **Framing.**  The server executes exactly the commands that were sent, and ends
    in the state in which it ends when every command arrives in a read of its own,
    iff every command does arrive in a read of its own. -/
theorem V10.framing_iff {s : Server} (hs : V10.version.system.Reachable s) (i : Slot) {cmds : List Command}
    (hid : ∀ c ∈ cmds, IsInt c.id) {bs : List Text} (hfit : ∀ b ∈ bs, (Read.data b).Fits)
    (hstream : bs.flatten = (cmds.map Command.text).flatten) :
    (∃ s', V10.version.serveReads i s bs = .ok (cmds.map Command.input, s') ∧
      V10.version.serveReads i s (cmds.map Command.text) = .ok (cmds.map Command.input, s')) ↔
      bs = cmds.map Command.text := by
  constructor
  · rintro ⟨s', h, -⟩
    have htight : ∀ b ∈ bs, b ≠ [] ∧ Tight b := by
      refine fun b hb => ⟨(hfit b hb).1, List.IsChain.infix (tight_stream cmds) ?_⟩
      rw [← hstream]
      exact List.infix_of_mem_flatten hb
    rcases lengths_of_serveReads htight h with he | hlt
    · exact List.eq_iff_flatten_eq.2 ⟨hstream, he⟩
    · rw [hstream] at hlt; omega
  · rintro rfl
    obtain ⟨s', hs'⟩ := Version.serveReads_texts V10.tidy i cmds (Version.legal_reachable V10.tidy hs) hid
    exact ⟨s', hs', hs'⟩

/-- `ENTER` and `EXIT` of the visitor 1. -/
def enterExit : List Command := [⟨1, .enter⟩, ⟨1, .exit⟩]

theorem V10.framing_iff_enterExit : ∃ s, V10.version.system.Reachable s ∧ s.IsOpen 0 ∧
    ((∃ s', V10.version.serveReads 0 s ["1 ENTER -1".toList, "1 EXIT -1".toList] =
        .ok (enterExit.map Command.input, s') ∧
      V10.version.serveReads 0 s (enterExit.map Command.text) = .ok (enterExit.map Command.input, s')) ↔
      ["1 ENTER -1".toList, "1 EXIT -1".toList] = enterExit.map Command.text) := by
  obtain ⟨s, -, he, hs⟩ := System.exec_of_any .init V10.version.step [.connect 4]
    (fun s => s.IsOpen 0) (by decide +kernel)
  exact ⟨s, ⟨_, he⟩, of_decide_eq_true hs, V10.framing_iff ⟨_, he⟩ 0 (by decide) (by decide) (by decide)⟩

/-- **Two commands in one read** are executed as one `ENTER`: the visitor stays
    inside. -/
theorem V10.framing_merged : ∃ s, V10.version.system.Reachable s ∧ s.IsOpen 0 ∧
    (V10.version.serveReads 0 s ["1 ENTER -11 EXIT -1".toList]).map (fun l => (l.1, l.2.currentVisitors)) =
      .ok ([.command 1 (some .enter) (-11)], 1) ∧
    (V10.version.serveReads 0 s (enterExit.map Command.text)).map (fun l => (l.1, l.2.currentVisitors)) =
      .ok (enterExit.map Command.input, 0) ∧
    ["1 ENTER -11 EXIT -1".toList].flatten = (enterExit.map Command.text).flatten := by
  obtain ⟨s, -, he, hs⟩ := System.exec_of_any .init V10.version.step [.connect 4]
    (fun s => s.IsOpen 0 ∧
      (V10.version.serveReads 0 s ["1 ENTER -11 EXIT -1".toList]).map (fun l => (l.1, l.2.currentVisitors)) =
        .ok ([.command 1 (some .enter) (-11)], 1) ∧
      (V10.version.serveReads 0 s (enterExit.map Command.text)).map (fun l => (l.1, l.2.currentVisitors)) =
        .ok (enterExit.map Command.input, 0)) (by decide +kernel)
  obtain ⟨h1, h2, h3⟩ := of_decide_eq_true hs
  exact ⟨s, ⟨_, he⟩, h1, h2, h3, by decide +kernel⟩

end Gallery
