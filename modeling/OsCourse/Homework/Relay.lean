/-
  The relay between two clients (seminar 11, server.c), which recognises the last message in a
  buffer that is not terminated.
-/
import Mathlib.Data.List.Induction
import OsCourse.Lib.Text

namespace Relay

open Text

/-! ## The server -/

def theEnd : Text := "The End".toList

/-- The buffer after a `recv`: the message, and behind it what has been there before. -/
def recv (buffer m : Text) : Text := m ++ buffer.drop m.length

/-- `strcmp(s, t) == 0` -/
def strcmpEq (s t : Text) : Bool := cstr s == cstr t

/-- The loop: the messages that are sent to the second client, and those that are not received any
    more. -/
def relay : Text → List Text → List Text × List Text
  | _, [] => ([], [])
  | buffer, m :: ms =>
    let buffer := recv buffer m
    let recvMsgSize := m.length
    if recvMsgSize > 0 then
      if strcmpEq buffer theEnd then ([], ms)
      else
        let r := relay buffer ms
        (buffer.take recvMsgSize :: r.1, r.2)
    else ([], ms)

/-! ## What it is for -/

/-- The messages before the first `The End`. -/
def before (msgs : List Text) : List Text := msgs.takeWhile (· ≠ theEnd)

/-- The messages behind it. -/
def behind (msgs : List Text) : List Text := (msgs.dropWhile (· ≠ theEnd)).tail

/-- The messages before `The End` are sent on as they are, and no message behind it is received. -/
def Relays (buffer : Text) (msgs : List Text) : Prop := relay buffer msgs = (before msgs, behind msgs)

/-- Messages that the first client can send. -/
structure Sent (buffer : Text) (msgs : List Text) : Prop where
  buffer : buffer.length = 256
  pos : ∀ m ∈ msgs, 0 < m.length
  le : ∀ m ∈ msgs, m.length ≤ 256
  noNul : ∀ m ∈ msgs, nul ∉ m

/-- Byte `j` of the last message that is long enough, or of the buffer at the beginning. -/
def latest (buffer : Text) (ms : List Text) (j : ℕ) : Option Char :=
  ((ms.reverse.find? fun m => j < m.length).getD buffer)[j]?

/-- The latest bytes spell `The End`, with a NUL. -/
def Spelled (buffer : Text) (ms : List Text) : Prop :=
  ∀ j < theEnd.length + 1, latest buffer ms j = (theEnd ++ [nul])[j]?

/-- There is a NUL behind `The End` when it is received, and no message before it is completed to
    `The End` by what the messages before that one have left. -/
structure Clean (buffer : Text) (msgs : List Text) : Prop where
  marker : theEnd ∈ msgs → buffer[theEnd.length]? = some nul ∧ ∀ m ∈ before msgs, m.length ≤ theEnd.length
  unspelled : ∀ ms, ms ≠ [] → ms <+: before msgs → ¬ Spelled buffer ms

/-! ## The contents of the buffer -/

variable {b m : Text} {ms msgs : List Text} {j : ℕ}

theorem getElem?_recv (b m : Text) (j : ℕ) : (recv b m)[j]? = if j < m.length then m[j]? else b[j]? := by
  unfold recv
  split_ifs with hj
  · exact List.getElem?_append_left hj
  · rw [List.getElem?_append_right (Nat.not_lt.1 hj), List.getElem?_drop, Nat.add_sub_cancel' (Nat.not_lt.1 hj)]

theorem latest_concat (b m : Text) (ms : List Text) (j : ℕ) :
    latest b (ms ++ [m]) j = if j < m.length then m[j]? else latest b ms j := by
  unfold latest
  rw [List.reverse_append, List.reverse_singleton, List.singleton_append, List.find?_cons]
  split_ifs with hj
  · simp [hj]
  · simp [hj]

/-- The buffer consists of the latest bytes. -/
theorem getElem?_foldl_recv (b : Text) (ms : List Text) (j : ℕ) : (ms.foldl recv b)[j]? = latest b ms j := by
  induction ms using List.reverseRecOn with
  | nil => rfl
  | append_singleton ms m ih =>
    rw [List.foldl_append, List.foldl_cons, List.foldl_nil, getElem?_recv, latest_concat, ih]

theorem length_recv (hm : m.length ≤ b.length) : (recv b m).length = b.length := by
  rw [recv, List.length_append, List.length_drop, Nat.add_sub_cancel' hm]

theorem length_foldl_recv (h : ∀ m ∈ ms, m.length ≤ b.length) : (ms.foldl recv b).length = b.length := by
  induction ms generalizing b with
  | nil => rfl
  | cons m ms ih =>
    have hm := length_recv (h m List.mem_cons_self)
    rw [List.foldl_cons, ih, hm]
    intro m' hm'
    rw [hm]
    exact h m' (List.mem_cons_of_mem m hm')

/-- **The test of the loop.** -/
theorem strcmpEq_foldl_recv (hlen : theEnd.length < b.length) (h : ∀ m ∈ ms, m.length ≤ b.length) :
    strcmpEq (ms.foldl recv b) theEnd = true ↔ Spelled b ms := by
  have hnul : nul ∉ theEnd := by decide
  have hlit : cstr theEnd = theEnd := cstr_of_notMem hnul
  rw [strcmpEq, beq_iff_eq, hlit, cstr_eq_iff hnul (by rw [length_foldl_recv h]; exact hlen),
    List.prefix_iff_getElem?]
  refine forall_congr' fun j => forall_congr' fun hj => ?_
  rw [getElem?_foldl_recv, List.getElem?_eq_getElem hj]

/-! ## The condition -/

theorem latest_eq_nul_iff (h : ∀ m ∈ ms, nul ∉ m) :
    latest b ms j = some nul ↔ b[j]? = some nul ∧ ∀ m ∈ ms, m.length ≤ j := by
  unfold latest
  cases hfind : ms.reverse.find? fun m => j < m.length with
  | none =>
    have hle : ∀ m ∈ ms, m.length ≤ j := by
      intro m hm
      simpa using List.find?_eq_none.1 hfind m (List.mem_reverse.2 hm)
    rw [Option.getD_none]
    exact ⟨fun hb => ⟨hb, hle⟩, fun hb => hb.1⟩
  | some m =>
    have hm : m ∈ ms := List.mem_reverse.1 (List.mem_of_find?_eq_some hfind)
    have hj : j < m.length := by simpa using List.find?_some hfind
    rw [Option.getD_some]
    constructor
    · intro hnul
      exact absurd (List.mem_of_getElem? hnul) (h m hm)
    · rintro ⟨-, hle⟩
      exact absurd (hle m hm) (Nat.not_le.2 hj)

/-- The NUL behind `The End` has been there from the beginning. -/
theorem spelled_theEnd (h : ∀ m ∈ ms, nul ∉ m) :
    Spelled b (ms ++ [theEnd]) ↔ b[theEnd.length]? = some nul ∧ ∀ m ∈ ms, m.length ≤ theEnd.length := by
  rw [← latest_eq_nul_iff h]
  constructor
  · intro hs
    have hlast := hs theEnd.length (Nat.lt_succ_self _)
    rw [latest_concat, if_neg (Nat.lt_irrefl _), List.getElem?_concat_length] at hlast
    exact hlast
  · intro hlast j hj
    rw [latest_concat]
    split_ifs with hlt
    · rw [List.getElem?_append_left hlt]
    · obtain rfl := Nat.le_antisymm (Nat.le_of_lt_succ hj) (Nat.not_lt.1 hlt)
      rw [hlast, List.getElem?_concat_length]

theorem relay_cons (hm : 0 < m.length) (b : Text) (msgs : List Text) :
    relay b (m :: msgs) = if strcmpEq (recv b m) theEnd then ([], msgs)
      else (m :: (relay (recv b m) msgs).1, (relay (recv b m) msgs).2) := by
  have htake : (recv b m).take m.length = m := List.take_left
  rw [relay, if_pos hm]
  simp only [htake]

/-- What the loop does, as conditions on the contents of the buffer. -/
theorem relays_iff_strcmpEq (hpos : ∀ m ∈ msgs, 0 < m.length) (b : Text) :
    Relays b msgs ↔ (∀ ms, ms ≠ [] → ms <+: before msgs → ¬ strcmpEq (ms.foldl recv b) theEnd = true) ∧
      (theEnd ∈ msgs → strcmpEq ((before msgs ++ [theEnd]).foldl recv b) theEnd = true) := by
  induction msgs generalizing b with
  | nil =>
    refine iff_of_true rfl ⟨fun ms hne hms => ?_, fun hend => absurd hend List.not_mem_nil⟩
    exact absurd (List.prefix_nil.1 hms) hne
  | cons m msgs ih =>
    specialize ih (fun m' hm' => hpos m' (List.mem_cons_of_mem m hm')) (recv b m)
    have hcons := relay_cons (hpos m List.mem_cons_self) b msgs
    by_cases hm : m = theEnd
    · subst hm
      have hbefore : before (theEnd :: msgs) = [] := List.takeWhile_cons_of_neg (by simp)
      have hbehind : behind (theEnd :: msgs) = msgs := by
        rw [behind, List.dropWhile_cons_of_neg (by simp), List.tail_cons]
      have hnil : ∀ ms : List Text, ms ≠ [] → ms <+: [] → ¬ strcmpEq (ms.foldl recv b) theEnd = true :=
        fun ms hne hms => absurd (List.prefix_nil.1 hms) hne
      rw [Relays, hcons, hbefore, hbehind]
      by_cases ht : strcmpEq (recv b theEnd) theEnd = true
      · rw [if_pos ht]
        exact iff_of_true rfl ⟨hnil, fun _ => ht⟩
      · rw [if_neg ht]
        exact iff_of_false (by simp) fun h => ht (h.2 List.mem_cons_self)
    · have hbefore : before (m :: msgs) = m :: before msgs := List.takeWhile_cons_of_pos (by simp [hm])
      have hbehind : behind (m :: msgs) = behind msgs := by
        rw [behind, List.dropWhile_cons_of_pos (by simp [hm]), behind]
      have hstep : Relays b (m :: msgs) ↔ ¬ strcmpEq (recv b m) theEnd = true ∧ Relays (recv b m) msgs := by
        rw [Relays, hcons, hbefore, hbehind]
        by_cases ht : strcmpEq (recv b m) theEnd = true
        · rw [if_pos ht]
          exact iff_of_false (by simp) fun h => h.1 ht
        · rw [if_neg ht, Relays]
          simp [ht, Prod.ext_iff]
      have hmem : theEnd ∈ m :: msgs ↔ theEnd ∈ msgs := by simp [Ne.symm hm]
      rw [hstep, ih, hbefore, hmem, List.cons_append, List.foldl_cons, ← and_assoc]
      refine and_congr_left fun _ => ?_
      constructor
      · rintro ⟨ht, hrest⟩ ms hne hms
        obtain rfl | ⟨ms', rfl, hms'⟩ := List.prefix_cons_iff.1 hms
        · exact absurd rfl hne
        · rcases eq_or_ne ms' [] with rfl | hne'
          · exact ht
          · exact hrest ms' hne' hms'
      · intro h
        constructor
        · exact h [m] (List.cons_ne_nil m []) (List.prefix_append [m] (before msgs))
        · intro ms _ hms
          exact h (m :: ms) (List.cons_ne_nil m ms) (List.cons_prefix_cons.2 ⟨rfl, hms⟩)

/-- **The messages before `The End` are relayed** exactly if the buffer is clean. -/
theorem relays_iff_clean (h : Sent b msgs) : Relays b msgs ↔ Clean b msgs := by
  have hsub : ∀ m ∈ before msgs, m ∈ msgs := fun m hm => (List.takeWhile_sublist _).subset hm
  have hle : ∀ m ∈ msgs, m.length ≤ b.length := by
    intro m hm
    rw [h.buffer]
    exact h.le m hm
  have hlen : theEnd.length < b.length := by
    rw [h.buffer]
    decide
  have hmarker : theEnd ∈ msgs → (strcmpEq ((before msgs ++ [theEnd]).foldl recv b) theEnd = true ↔
      b[theEnd.length]? = some nul ∧ ∀ m ∈ before msgs, m.length ≤ theEnd.length) := by
    intro hend
    have hall : ∀ m ∈ before msgs ++ [theEnd], m.length ≤ b.length := by
      intro m hm
      rcases List.mem_append.1 hm with hm | hm
      · exact hle m (hsub m hm)
      · exact hle m (List.mem_singleton.1 hm ▸ hend)
    rw [strcmpEq_foldl_recv hlen hall, spelled_theEnd fun m hm => h.noNul m (hsub m hm)]
  have hspelled : ∀ ms, ms <+: before msgs → (strcmpEq (ms.foldl recv b) theEnd = true ↔ Spelled b ms) := by
    intro ms hms
    exact strcmpEq_foldl_recv hlen fun m hm => hle m (hsub m (hms.subset hm))
  rw [relays_iff_strcmpEq h.pos]
  constructor
  · rintro ⟨hbefore, hend⟩
    constructor
    · intro hmem
      exact (hmarker hmem).1 (hend hmem)
    · intro ms hne hms hs
      exact hbefore ms hne hms ((hspelled ms hms).2 hs)
  · rintro ⟨hend, hbefore⟩
    constructor
    · intro ms hne hms hs
      exact hbefore ms hne hms ((hspelled ms hms).1 hs)
    · intro hmem
      exact (hmarker hmem).2 (hend hmem)

/-! ## Two dialogues -/

/-- A buffer of zeros, and a message that is shorter than `The End`. -/
theorem relays_iff_clean_short : Relays (List.replicate 256 nul) ["Hello".toList, theEnd, "Again".toList] := by
  have hbefore : before ["Hello".toList, theEnd, "Again".toList] = ["Hello".toList] := by decide
  refine (relays_iff_clean ⟨List.length_replicate, by decide, by decide, by decide⟩).2 ⟨fun _ => ⟨rfl, ?_⟩, ?_⟩
  · rw [hbefore]
    decide
  · intro ms hne hms hs
    rw [hbefore] at hms
    obtain rfl | ⟨ms', rfl, hms'⟩ := List.prefix_cons_iff.1 hms
    · exact hne rfl
    · obtain rfl := List.prefix_nil.1 hms'
      have hfirst := hs 0 (by decide)
      revert hfirst
      decide

/-- `The End` behind a message that is longer: it is sent on. -/
theorem not_relays_long :
    Sent (List.replicate 256 nul) ["Good morning".toList, theEnd] ∧
      relay (List.replicate 256 nul) ["Good morning".toList, theEnd] = (["Good morning".toList, theEnd], []) ∧
      ¬ Relays (List.replicate 256 nul) ["Good morning".toList, theEnd] := by
  have hrelay : relay (List.replicate 256 nul) ["Good morning".toList, theEnd] =
      (["Good morning".toList, theEnd], []) := by decide
  refine ⟨⟨List.length_replicate, by decide, by decide, by decide⟩, hrelay, ?_⟩
  rw [Relays, hrelay]
  decide

end Relay
