/-
  What the handler of idz os 3/10 writes into `action` and which elements of `painting_counts`
  it uses, with clients that may send anything.
-/
import OsCourse.Lib.Traces
import OsCourse.Gallery.Service

namespace Gallery

open Transition System

/-! ## The array `action` -/

/-- How many bytes `%s` stores in `action`, with the NUL, when it comes to that. -/
def actionBytes (t : Text) : ℕ :=
  match Text.scanInt t with
  | none => 0
  | some (_, t) =>
    match Text.scanWord t with
    | none => 0
    | some (w, _) => w.length + 1

/-- A number, and behind it a word of twenty characters or more. -/
def LongWord (t : Text) : Prop :=
  ∃ ws num ws' word rest, Text.Blank ws ∧ Text.IsNumeral num ∧ Text.Blank ws' ∧ Text.Solid word ∧
    20 ≤ word.length ∧ t = ws ++ (num ++ (ws' ++ (word ++ rest))) ∧ Text.NoDigit (ws' ++ word)

theorem twenty_lt_actionBytes_iff (t : Text) : 20 < actionBytes t ↔ LongWord t := by
  constructor
  · intro h
    unfold actionBytes at h
    rcases hn : Text.scanInt t with _ | ⟨n, u⟩
    · simp [hn] at h
    rcases hw : Text.scanWord u with _ | ⟨w, rest⟩
    · simp [hn, hw] at h
    simp only [hn, hw] at h
    obtain ⟨ws, num, hws, hnum, rfl, hu⟩ := Text.scanInt_iff.1 ⟨n, hn⟩
    obtain ⟨ws', hws', hne, hsolid, rfl, hrest⟩ := Text.scanWord_iff.1 hw
    rw [← List.append_assoc, Text.noDigit_append (by simp [hne])] at hu
    exact ⟨ws, num, ws', w, rest, hws, hnum, hws', hsolid, by omega, rfl, hu⟩
  · rintro ⟨ws, num, ws', word, rest, hws, hnum, hws', hsolid, hlen, rfl, hdigit⟩
    have hne : word ≠ [] := by
      rintro rfl
      simp at hlen
    have hstop : Text.NoDigit (ws' ++ (word ++ rest)) := by
      rwa [← List.append_assoc, Text.noDigit_append (by simp [hne])]
    obtain ⟨n, hn⟩ := Text.scanInt_iff.2 ⟨ws, num, hws, hnum, rfl, hstop⟩
    -- the word goes on up to the next white space
    have hsolid' : Text.Solid (word ++ rest.takeWhile (!Text.isSpace ·)) := by
      intro c hc
      rcases List.mem_append.1 hc with hc | hc
      · exact hsolid c hc
      · simpa using List.mem_takeWhile_imp hc
    have hw : Text.scanWord (ws' ++ (word ++ rest)) =
        some (word ++ rest.takeWhile (!Text.isSpace ·), rest.dropWhile (!Text.isSpace ·)) := by
      refine Text.scanWord_iff.2 ⟨ws', hws', by simp [hne], hsolid', ?_, fun c hc => ?_⟩
      · rw [List.append_assoc, List.takeWhile_append_dropWhile]
      · have hspace := List.head?_dropWhile_not (!Text.isSpace ·) rest
        rw [Option.mem_def.1 hc] at hspace
        simpa using hspace
    simp only [actionBytes, hn, hw, List.length_append]
    omega

/-! ## The elements of `painting_counts` -/

/-- An index of `painting_counts`. -/
def InRange (n : ℤ) : Prop := 0 ≤ n ∧ n < 5

instance (n : ℤ) : Decidable (InRange n) := inferInstanceAs (Decidable (_ ∧ _))

/-- The indices that `broadcast_status` uses. -/
def statusIndices : List ℤ := [0, 1, 2, 3, 4]

/-- The index that is used when the client of slot `i` is taken off `painting_counts`. -/
def Server.storedIndices (s : Server) (i : Slot) : List ℤ :=
  if (s.clients i).currentPainting = -1 then [] else [(s.clients i).currentPainting]

/-- The indices of `painting_counts` that the handler uses. -/
def indices (s : Server) (i : Slot) : Input → List ℤ
  | .closed => s.storedIndices i ++ statusIndices
  | .monitor => statusIndices
  | .ignored => []
  | .command _ (some .enter) _ => statusIndices
  | .command _ (some .view) n => if 0 ≤ n ∧ n < 5 then n :: statusIndices else []
  | .command _ (some .leavePainting) _ =>
    if (s.clients i).currentPainting = -1 then [] else s.storedIndices i ++ statusIndices
  | .command _ (some .exit) _ => s.storedIndices i ++ statusIndices
  | .command _ none _ => []

/-- All of them are in range. -/
def IndicesOk (s : Server) (i : Slot) (inp : Input) : Prop := ∀ n ∈ indices s i inp, InRange n

theorem inRange_status {n : ℤ} (h : n ∈ statusIndices) : InRange n := by
  have hall : ∀ n ∈ statusIndices, InRange n := by decide
  exact hall n h

theorem storedIndices_visitorId (s : Server) (i : Slot) (id : ℤ) :
    (s.setClient i { s.clients i with visitorId := id }).storedIndices i = s.storedIndices i := by
  simp only [Server.storedIndices, Server.setClient_clients_self]

theorem forall_statusIndices_append {l : List ℤ} :
    (∀ n ∈ l ++ statusIndices, InRange n) ↔ ∀ n ∈ l, InRange n := by
  rw [List.forall_mem_append]
  exact and_iff_left fun n hn => inRange_status hn

namespace Version

theorem releasePainting_ok_iff (w : Version) (s : Server) (i : Slot) :
    (∃ t, w.releasePainting s i = .ok t) ↔ ∀ n ∈ s.storedIndices i, InRange n := by
  unfold releasePainting Server.storedIndices
  split_ifs with hc
  · exact iff_of_true ⟨s, rfl⟩ (by simp)
  · rw [List.forall_mem_singleton]
    cases hp : painting? (s.clients i).currentPainting with
    | some p =>
      refine iff_of_true ⟨_, rfl⟩ ?_
      rw [painting?_eq_some.1 hp]
      have := p.isLt
      exact ⟨by omega, by omega⟩
    | none =>
      refine iff_of_false (fun ⟨t, ht⟩ => (by cases ht)) fun hr => ?_
      unfold InRange at hr
      rw [painting?, dif_pos hr] at hp
      cases hp

theorem map_ok_iff {α β : Type} {f : α → β} {x : Except Fault α} :
    (∃ b, x.map f = .ok b) ↔ ∃ a, x = .ok a := by
  cases x with
  | error e => exact iff_of_false (fun ⟨b, hb⟩ => (by cases hb)) fun ⟨a, ha⟩ => (by cases ha)
  | ok a => exact iff_of_true ⟨f a, rfl⟩ ⟨a, rfl⟩

/-- **The only fault of the handler** is an index out of range. -/
theorem react_ok_iff (w : Version) (s : Server) (i : Slot) (inp : Input) :
    (∃ r, w.react s i inp = .ok r) ↔ IndicesOk s i inp := by
  unfold IndicesOk
  cases inp with
  | closed =>
    rw [react, map_ok_iff, releasePainting_ok_iff, indices, forall_statusIndices_append]
  | monitor => exact iff_of_true ⟨_, rfl⟩ fun n => inRange_status
  | ignored => exact iff_of_true ⟨_, rfl⟩ (by simp [indices])
  | command id action k =>
    rcases action with _ | action
    · exact iff_of_true ⟨_, rfl⟩ (by simp [indices])
    cases action with
    | enter => exact iff_of_true ⟨_, rfl⟩ fun n => inRange_status
    | view =>
      refine iff_of_true ⟨_, rfl⟩ fun n hn => ?_
      simp only [indices] at hn
      split_ifs at hn with hk
      · rcases List.mem_cons.1 hn with rfl | hn
        · exact hk
        · exact inRange_status hn
      · cases hn
    | leavePainting =>
      simp only [react, execute, indices, Server.setClient_clients_self]
      split_ifs with hc
      · exact iff_of_true ⟨_, rfl⟩ (by simp)
      · rw [map_ok_iff, releasePainting_ok_iff, storedIndices_visitorId, forall_statusIndices_append]
    | exit =>
      simp only [react, execute, indices]
      rw [map_ok_iff, releasePainting_ok_iff, storedIndices_visitorId, forall_statusIndices_append]

end Version

/-- **A legal `current_painting` is used in range**, whatever the input is. -/
theorem Server.Legal.indicesOk {s : Server} (hs : s.Legal) (i : Slot) (inp : Input) : IndicesOk s i inp := by
  obtain ⟨r, hr, -⟩ := V10.version.react_spec (hs i) inp
  exact (V10.version.react_ok_iff s i inp).1 ⟨r, hr⟩

/-! ## Numbers that are no `int` -/

/-- What `%d` may store when it reads `n`: anything if `n` is no `int`. -/
def MayStore (n m : ℤ) : Prop := IsInt m ∧ (IsInt n → m = n)

/-- The inputs that may come of a payload. -/
def Delivers (buf : Text) : Input → Prop
  | .closed => False
  | .monitor => decode (.data buf) = .ok .monitor
  | .ignored => decode (.data buf) = .ok .ignored
  | .command id action n => ∃ x t w u y v, Text.scanInt (Text.cstr buf) = some (x, t) ∧
      Text.scanWord t = some (w, u) ∧ Text.scanInt u = some (y, v) ∧
      MayStore x id ∧ action = Action.ofText w ∧ MayStore y n

theorem storeInt_eq_ok {n m : ℤ} (h : storeInt n = .ok m) : MayStore n m := by
  unfold storeInt at h
  split_ifs at h with hn
  obtain rfl := Except.ok.inj h
  exact ⟨hn, fun _ => rfl⟩

theorem scanCommand_eq_some {t w : Text} {id n : ℤ} (h : scanCommand t = .ok (some (id, w, n))) :
    ∃ x u y, Text.scanInt t = some (x, u) ∧ storeInt x = .ok id ∧
      ∃ v v', Text.scanWord u = some (w, v) ∧ Text.scanInt v = some (y, v') ∧ storeInt y = .ok n := by
  unfold scanCommand at h
  rcases hx : Text.scanInt t with _ | ⟨x, u⟩
  · simp [hx] at h
  rcases hid : storeInt x with _ | id'
  · simp [hx, hid, Except.bind] at h
  rcases hw : Text.scanWord u with _ | ⟨w', v⟩
  · simp [hx, hid, hw, Except.bind] at h
  by_cases hlen : 20 ≤ w'.length
  · simp [hx, hid, hw, hlen, Except.bind] at h
  rcases hy : Text.scanInt v with _ | ⟨y, v'⟩
  · simp [hx, hid, hw, hlen, hy, Except.bind] at h
  rcases hn : storeInt y with _ | n'
  · simp [hx, hid, hw, hlen, hy, hn, Except.bind, Except.map] at h
  simp only [hx, hid, hw, hlen, hy, hn, Except.bind, Except.map, if_false, Except.ok.injEq, Option.some.injEq,
    Prod.mk.injEq] at h
  obtain ⟨rfl, rfl, rfl⟩ := h
  exact ⟨x, u, y, rfl, hid, v, v', hw, hy, hn⟩

/-- What the handler reads when the numbers are of type `int` is among the inputs. -/
theorem delivers_of_decode {buf : Text} {inp : Input} (h : decode (.data buf) = .ok inp) :
    Delivers buf inp := by
  cases inp with
  | closed => exact absurd rfl (decode_data_ne_closed h)
  | monitor | ignored => exact h
  | command id action n =>
    rw [decode] at h
    rcases hscan : scanCommand (Text.cstr buf) with f | (_ | ⟨id', w, n'⟩)
    · rw [hscan] at h
      cases h
    · rw [hscan] at h
      simp only [Except.map, Except.ok.injEq] at h
      split_ifs at h
    · rw [hscan] at h
      simp only [Except.map, Except.ok.injEq, Input.command.injEq] at h
      obtain ⟨rfl, rfl, rfl⟩ := h
      obtain ⟨x, u, y, hx, hid, v, v', hw, hy, hn⟩ := scanCommand_eq_some hscan
      exact ⟨x, u, w, v, y, v', hx, hw, hy, storeInt_eq_ok hid, rfl, storeInt_eq_ok hn⟩

/-- The events of the main loop, with what `sscanf` has stored. -/
inductive Turn
  | connect (newSocket : ℤ)
  | message (i : Slot) (inp : Input)

namespace Version
variable (w : Version)

/-- One turn of the loop. -/
def turn (s : Server) : Turn → Option Server
  | .connect newSocket =>
    if 0 < newSocket ∧ ∀ i, (s.clients i).fd ≠ newSocket then some (s.accept newSocket) else none
  | .message i inp => if s.IsOpen i then (w.react s i inp).toOption.map Reaction.server else none

/-- The server with clients that send numbers of any size. -/
def wide : System Server Turn := .ofFn .init w.turn

variable {w} {s : Server}

/-- Clients that send numbers of type `int` are among them. -/
theorem reachable_wide (h : w.system.Reachable s) : w.wide.Reachable s := by
  refine Reachable.map (S := w.system) (T := w.wide) id (fun _ hs => hs) (fun s e s' _ hs => .inr ?_) h
  obtain ⟨r, hr, rfl⟩ := Option.map_eq_some_iff.1 hs
  cases e with
  | connect newSocket =>
    obtain ⟨hpos, hfresh, rfl⟩ := serve_connect hr
    exact ⟨.connect newSocket, if_pos ⟨hpos, hfresh⟩⟩
  | message i m =>
    obtain ⟨⟨hopen, -⟩, hr⟩ := Option.ite_none_right_eq_some.1 hr
    cases hd : decode m with
    | error f =>
      rw [handleClientMessage, hd] at hr
      cases hr
    | ok inp =>
      rw [handleClientMessage, hd, Except.bind] at hr
      have hturn : w.turn s (.message i inp) = some r.server := by simp [turn, hopen, hr]
      exact ⟨.message i inp, hturn⟩

theorem legal_turn {s' : Server} {a : Turn} (hw : w.Tidy) (hs : s.Legal) (h : w.turn s a = some s') :
    s'.Legal := by
  cases a with
  | connect newSocket =>
    obtain ⟨-, hacc⟩ := Option.ite_none_right_eq_some.1 h
    obtain rfl := Option.some.inj hacc
    exact hs.accept newSocket
  | message i inp =>
    obtain ⟨-, hr⟩ := Option.ite_none_right_eq_some.1 h
    obtain ⟨r, hreact, hh⟩ := w.react_spec (hs i) inp
    rw [hreact] at hr
    obtain rfl := Option.some.inj hr
    exact hh.legal hw hs

theorem legal_wide (hw : w.Tidy) (h : w.wide.Reachable s) : s.Legal :=
  System.Inductive.reachable (S := w.wide) (J := Server.Legal)
    ⟨fun _ h => h ▸ Server.legal_init, fun _ _ _ hs hst => legal_turn hw hs hst⟩ h

theorem legal_steps (hw : w.Tidy) (hs : s.Legal) {tr : List (Server × Turn)} {t : Server}
    (h : w.wide.Steps s tr t) : t.Legal := by
  induction h with
  | nil => exact hs
  | cons hst _ ih => exact ih (legal_turn hw hs hst)

end Version

/-! ## The bounds -/

namespace V10
variable {s : Server} {buf : Text}

/-- What the handler does with the payload is within the bounds of its arrays, and so is what
    later calls do with what it has stored. -/
structure Safe (s : Server) (i : Slot) (buf : Text) : Prop where
  action : actionBytes (Text.cstr buf) ≤ 20
  now : ∀ inp, Delivers buf inp → IndicesOk s i inp
  later : ∀ inp r, Delivers buf inp → version.react s i inp = .ok r →
    ∀ tr t, version.wide.Steps r.server tr t → ∀ j inp', IndicesOk t j inp'

theorem safe_iff_actionBytes (hs : s.Legal) (i : Slot) (buf : Text) :
    Safe s i buf ↔ actionBytes (Text.cstr buf) ≤ 20 := by
  constructor
  · exact fun h => h.action
  · intro haction
    refine ⟨haction, fun inp _ => hs.indicesOk i inp, fun inp r _ hr tr t hst j inp' => ?_⟩
    obtain ⟨r', hr', hh⟩ := version.react_spec (hs i) inp
    obtain rfl := Except.ok.inj (hr'.symm.trans hr)
    exact (Version.legal_steps tidy (hh.legal tidy hs) hst).indicesOk j inp'

/-- **When the handler stays within its arrays.** -/
theorem safe_iff (h : version.wide.Reachable s) (i : Slot) (buf : Text) :
    Safe s i buf ↔ ¬ LongWord (Text.cstr buf) := by
  rw [safe_iff_actionBytes (Version.legal_wide tidy h), ← twenty_lt_actionBytes_iff, Nat.not_lt]

/-- A command with a word of so many letters. -/
def wordy (n : ℕ) : Text := "1 ".toList ++ (List.replicate n 'A' ++ " 1".toList)

theorem safe_iff_wordy : Safe .init 0 (wordy 19) := by
  refine (safe_iff (.init rfl) 0 (wordy 19)).2 ?_
  rw [← twenty_lt_actionBytes_iff]
  decide

/-- Twenty letters and the NUL are 21 bytes. -/
theorem not_safe : ¬ ∀ (s : Server) (i : Slot) (buf : Text), version.system.Reachable s → s.IsOpen i →
    (Read.data buf).Fits → Safe s i buf := by
  intro hall
  obtain ⟨s, hs, -, hopen⟩ := exec_of_any Server.init version.step [.connect 4] (fun s => s.IsOpen 0)
    (by decide +kernel)
  have hsafe := hall s 0 (wordy 20) (reachable_runFn hs) (of_decide_eq_true hopen) (by decide)
  have hbytes : actionBytes (Text.cstr (wordy 20)) = 21 := by decide
  have hle := hsafe.action
  omega

end V10

end Gallery
