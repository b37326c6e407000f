/-
  The chat of seminar 11: client1.c sends the lines that are typed, server.c relays what it
  receives, client2.c prints it.  What is printed, however the two connections cut their streams.
-/
import Mathlib.Data.List.Infix
import OsCourse.Homework.Relay

namespace Relay

open Text

/-! ## The clients -/

/-- `fgets(buffer, n + 1, stdin)`: the line in the buffer, and what has not been read. -/
def fgets : ℕ → Text → Text × Text
  | 0, stdin => ([], stdin)
  | _ + 1, [] => ([], [])
  | n + 1, c :: stdin => if c = '\n' then ([c], stdin) else (c :: (fgets n stdin).1, (fgets n stdin).2)

/-- `buffer[strcspn(buffer, "\n")] = 0` -/
def chomp (buffer : Text) : Text := (cstr buffer).takeWhile (· ≠ '\n')

/-- The loop of client1.c, for at most `fuel` lines: the strings that it sends. -/
def sendLoop : ℕ → Text → List Text
  | 0, _ => []
  | fuel + 1, stdin =>
    if stdin = [] then []
    else
      let r := fgets 255 stdin
      let buffer := chomp r.1
      if buffer = theEnd then [buffer] else buffer :: sendLoop fuel r.2

/-- client1.c.  A line has a character at least. -/
def client1 (stdin : Text) : List Text := sendLoop stdin.length stdin

/-- The loop of client2.c: the strings that it prints. -/
def client2 : List Text → List Text
  | [] => []
  | piece :: pieces =>
    if piece.length > 0 then
      let echoBuffer := cstr (piece ++ [nul])
      if echoBuffer = theEnd then [echoBuffer] else echoBuffer :: client2 pieces
    else []

/-- The calls of `recv` return the stream in pieces of `size` bytes at most. -/
structure Cuts (size : ℕ) (pieces : List Text) (stream : Text) : Prop where
  flatten : pieces.flatten = stream
  pos : ∀ piece ∈ pieces, 0 < piece.length
  le : ∀ piece ∈ pieces, piece.length ≤ size

/-! ## What is typed -/

variable {stdin : Text}

theorem fgets_append (n : ℕ) (stdin : Text) : (fgets n stdin).1 ++ (fgets n stdin).2 = stdin := by
  induction n generalizing stdin with
  | zero => rfl
  | succ n ih =>
    cases stdin with
    | nil => rfl
    | cons c stdin =>
      rw [fgets]
      split_ifs
      · rfl
      · rw [List.cons_append, ih]

/-- A line has no newline but at its end. -/
theorem takeWhile_fgets (n : ℕ) (stdin : Text) :
    (fgets n stdin).1.takeWhile (· ≠ '\n') = (fgets n stdin).1.filter (· ≠ '\n') := by
  induction n generalizing stdin with
  | zero => rfl
  | succ n ih =>
    cases stdin with
    | nil => rfl
    | cons c stdin =>
      rw [fgets]
      split_ifs with hc
      · subst hc
        rfl
      · rw [List.takeWhile_cons_of_pos (by simpa using hc), List.filter_cons_of_pos (by simpa using hc), ih]

theorem chomp_fgets (hnul : nul ∉ stdin) (n : ℕ) : chomp (fgets n stdin).1 = (fgets n stdin).1.filter (· ≠ '\n') := by
  have hline : nul ∉ (fgets n stdin).1 := by
    intro hmem
    rw [← fgets_append n stdin] at hnul
    exact hnul (List.mem_append_left _ hmem)
  rw [chomp, cstr_of_notMem hline, takeWhile_fgets]

/-- What is sent has been typed. -/
theorem flatten_sendLoop (hnul : nul ∉ stdin) (fuel : ℕ) :
    (sendLoop fuel stdin).flatten <+: stdin.filter (· ≠ '\n') := by
  induction fuel generalizing stdin with
  | zero => exact List.nil_prefix
  | succ fuel ih =>
    rw [sendLoop]
    split_ifs with hnil
    · exact List.nil_prefix
    have happend := fgets_append 255 stdin
    have hrest : nul ∉ (fgets 255 stdin).2 := by
      intro hmem
      rw [← happend] at hnul
      exact hnul (List.mem_append_right _ hmem)
    have hfilter : stdin.filter (· ≠ '\n') =
        chomp (fgets 255 stdin).1 ++ (fgets 255 stdin).2.filter (· ≠ '\n') := by
      conv_lhs => rw [← happend]
      rw [List.filter_append, chomp_fgets hnul]
    rw [hfilter]
    dsimp only
    split_ifs
    · rw [List.flatten_singleton]
      exact List.prefix_append _ _
    · rw [List.flatten_cons, List.prefix_append_right_inj]
      exact ih hrest

theorem nul_notMem_client1 (hnul : nul ∉ stdin) : nul ∉ (client1 stdin).flatten := by
  intro hmem
  have := (flatten_sendLoop hnul stdin.length).subset hmem
  exact hnul (List.mem_filter.1 this).1

/-! ## What is relayed and printed -/

variable {buffer : Text} {pieces : List Text} {size : ℕ} {stream : Text}

/-- The server relays all that it receives, or what comes before the piece with which its buffer
    spells `The End`. -/
theorem relay_fst (hpos : ∀ piece ∈ pieces, 0 < piece.length) (buffer : Text) :
    (relay buffer pieces).1 <+: pieces ∧ ((relay buffer pieces).1 = pieces ↔
      ∀ ms, ms ≠ [] → ms <+: pieces → ¬ strcmpEq (ms.foldl recv buffer) theEnd = true) := by
  induction pieces generalizing buffer with
  | nil =>
    refine ⟨List.nil_prefix, iff_of_true rfl fun ms hne hms => ?_⟩
    exact absurd (List.prefix_nil.1 hms) hne
  | cons m pieces ih =>
    obtain ⟨hpref, hiff⟩ := ih (fun p hp => hpos p (List.mem_cons_of_mem m hp)) (recv buffer m)
    rw [relay_cons (hpos m List.mem_cons_self)]
    split_ifs with hend
    · refine ⟨List.nil_prefix, iff_of_false (by simp) fun h => ?_⟩
      exact h [m] (List.cons_ne_nil m []) (List.prefix_append [m] pieces) hend
    · refine ⟨List.cons_prefix_cons.2 ⟨rfl, hpref⟩, ?_⟩
      rw [List.cons_inj_right, hiff]
      constructor
      · intro h ms hne hms
        obtain rfl | ⟨ms', rfl, hms'⟩ := List.prefix_cons_iff.1 hms
        · exact absurd rfl hne
        · rcases eq_or_ne ms' [] with rfl | hne'
          · exact hend
          · exact h ms' hne' hms'
      · intro h ms _ hms
        exact h (m :: ms) (List.cons_ne_nil m ms) (List.cons_prefix_cons.2 ⟨rfl, hms⟩)

/-- The second client prints what it receives, up to a piece that is `The End`. -/
theorem client2_prefix (hpos : ∀ piece ∈ pieces, 0 < piece.length) (hnul : nul ∉ pieces.flatten) :
    client2 pieces <+: pieces ∧ (client2 pieces = pieces ↔ theEnd ∉ pieces.dropLast) := by
  induction pieces with
  | nil => exact ⟨List.nil_prefix, iff_of_true rfl List.not_mem_nil⟩
  | cons m pieces ih =>
    rw [List.flatten_cons, List.mem_append, not_or] at hnul
    obtain ⟨hpref, hiff⟩ := ih (fun p hp => hpos p (List.mem_cons_of_mem m hp)) hnul.2
    rw [client2, if_pos (hpos m List.mem_cons_self), cstr_append_cons m [] hnul.1]
    dsimp only
    cases pieces with
    | nil =>
      rw [client2]
      simp
    | cons m' pieces =>
      rw [List.dropLast_cons_cons, List.mem_cons, not_or]
      split_ifs with hend
      · refine ⟨List.prefix_append [m] (m' :: pieces), iff_of_false (by simp) fun h => h.1 hend.symm⟩
      · rw [List.cons_inj_right, hiff]
        exact ⟨List.cons_prefix_cons.2 ⟨rfl, hpref⟩, (and_iff_right (Ne.symm hend)).symm⟩

/-- Pieces that are not empty are lost if bytes are lost. -/
theorem flatten_eq_iff {l : List Text} (hpos : ∀ piece ∈ pieces, 0 < piece.length) (h : l <+: pieces) :
    l.flatten = pieces.flatten ↔ l = pieces := by
  obtain ⟨r, rfl⟩ := h
  rw [List.flatten_append, List.self_eq_append_right, List.self_eq_append_right]
  cases r with
  | nil => exact iff_of_true rfl rfl
  | cons m r =>
    have := hpos m (by simp)
    refine iff_of_false (fun h => ?_) (List.cons_ne_nil m r)
    rw [List.flatten_cons, List.append_eq_nil_iff] at h
    rw [h.1] at this
    exact absurd this (Nat.lt_irrefl 0)

/-- **The chat.**  What the second client prints are the first characters of what the first
    client has sent, and that are the first characters that have been typed, without the ends of
    the lines.  All that has been sent is printed exactly if the buffer of the server never spells
    `The End`, and no piece but the last comes to the second client as `The End`. -/
theorem chat (hnul : nul ∉ stdin) (hbuffer : buffer.length = 256) {pieces₁ pieces₂ : List Text}
    (h₁ : Cuts 256 pieces₁ (client1 stdin).flatten) (h₂ : Cuts 31 pieces₂ (relay buffer pieces₁).1.flatten) :
    (client2 pieces₂).flatten <+: (client1 stdin).flatten ∧
      (client1 stdin).flatten <+: stdin.filter (· ≠ '\n') ∧
      ((client2 pieces₂).flatten = (client1 stdin).flatten ↔
        (∀ ms, ms ≠ [] → ms <+: pieces₁ → ¬ Spelled buffer ms) ∧ theEnd ∉ pieces₂.dropLast) := by
  obtain ⟨hrelay, hrelay_iff⟩ := relay_fst h₁.pos buffer
  have hrelayed : (relay buffer pieces₁).1.flatten <+: (client1 stdin).flatten := by
    rw [← h₁.flatten]
    exact List.IsPrefix.flatten hrelay
  have hnul₂ : nul ∉ pieces₂.flatten := by
    rw [h₂.flatten]
    exact fun hmem => nul_notMem_client1 hnul (hrelayed.subset hmem)
  obtain ⟨hprint, hprint_iff⟩ := client2_prefix h₂.pos hnul₂
  have hprinted : (client2 pieces₂).flatten <+: (relay buffer pieces₁).1.flatten := by
    rw [← h₂.flatten]
    exact List.IsPrefix.flatten hprint
  refine ⟨hprinted.trans hrelayed, flatten_sendLoop hnul _, ?_⟩
  have hspelled : ∀ ms, ms <+: pieces₁ → (strcmpEq (ms.foldl recv buffer) theEnd = true ↔ Spelled buffer ms) := by
    intro ms hms
    refine strcmpEq_foldl_recv (by rw [hbuffer]; decide) fun m hm => ?_
    rw [hbuffer]
    exact h₁.le m (hms.subset hm)
  have hserver : (∀ ms, ms ≠ [] → ms <+: pieces₁ → ¬ Spelled buffer ms) ↔
      (relay buffer pieces₁).1.flatten = (client1 stdin).flatten := by
    rw [← h₁.flatten, flatten_eq_iff h₁.pos hrelay, hrelay_iff]
    refine forall_congr' fun ms => forall_congr' fun _ => forall_congr' fun hms => ?_
    rw [hspelled ms hms]
  have hclient : theEnd ∉ pieces₂.dropLast ↔ (client2 pieces₂).flatten = (relay buffer pieces₁).1.flatten := by
    rw [← h₂.flatten, flatten_eq_iff h₂.pos hprint, hprint_iff]
  rw [hserver, hclient]
  constructor
  · intro heq
    have hback : (relay buffer pieces₁).1.flatten = (client1 stdin).flatten :=
      hrelayed.eq_of_length_le (heq ▸ hprinted.length_le)
    exact ⟨hback, heq.trans hback.symm⟩
  · rintro ⟨hback, heq⟩
    exact heq.trans hback

/-- Two lines, of which the second ends the chat. -/
def greeting : Text := "Hello\nThe End\n".toList

theorem chat_greeting : (client2 ["Hel".toList, "lo".toList]).flatten <+: (client1 greeting).flatten ∧
    (client1 greeting).flatten <+: greeting.filter (· ≠ '\n') ∧
    ((client2 ["Hel".toList, "lo".toList]).flatten = (client1 greeting).flatten ↔
      (∀ ms, ms ≠ [] → ms <+: ["Hello".toList, theEnd] → ¬ Spelled (List.replicate 256 nul) ms) ∧
        theEnd ∉ ["Hel".toList, "lo".toList].dropLast) :=
  chat (by decide) List.length_replicate ⟨by decide, by decide, by decide⟩ ⟨by decide, by decide, by decide⟩

end Relay
