/-
  The lines that wait.c can print: every mixture of two times that follow one another.
-/
import Mathlib.Data.List.Induction
import OsCourse.Semaphores.Clock

namespace Semaphores.Clock

open Transition System Text

variable {times : ℕ → Tm} {line : Text} {k i : ℕ}

/-- Both programs are at the beginning of a round, after `k` rounds. -/
def top (times : ℕ → Tm) (k : ℕ) (formatted : Text) (printed : List Text) : State where
  linked := true
  sized := true
  memReady := true
  timeStr := shown times k
  sem1 := some 0
  sem2 := some 0
  waitPc := .loop
  postPc := .loop
  isContinue := fun _ => true
  formatted := formatted
  posted := k
  printed := printed

/-- The memory while the bytes `rest` of the time `k` are still to be stored. -/
def mixture (times : ℕ → Tm) (k : ℕ) (rest : List ℕ) (i : ℕ) : Char :=
  if i ∈ rest then shown times k i else shown times (k + 1) i

/-- post.c copies the time `k`, and wait.c is in its turn. -/
def during (times : ℕ → Tm) (k : ℕ) (pc : WaitPc) (rest : List ℕ) (printed : List Text) : State :=
  { top times k (strftime (times k)) printed with
    timeStr := mixture times k rest
    waitPc := pc
    postPc := .copying rest
    posted := k + 1 }

variable {formatted : Text} {printed : List Text} {rest : List ℕ} {pc : WaitPc}

theorem reachable_top_zero : (system times).Reachable (top times 0 [] []) :=
  have h : runFn (step times) initial [.wait, .wait, .wait, .wait, .wait, .post, .post] =
      some (top times 0 [] []) := rfl
  reachable_runFn h

theorem reachable_during (h : (system times).Reachable (top times k formatted printed)) :
    (system times).Reachable (during times k (.printing []) (List.range 21) printed) := by
  have hcopy : shown times k = mixture times k (List.range 21) := by
    funext i
    unfold mixture
    split_ifs with hi
    · rfl
    · rw [List.mem_range] at hi
      rw [shown_of_le (by omega), shown_of_le (by omega)]
  have hrun : runFn (step times) (top times k formatted printed) [.post, .post, .wait, .wait] =
      some { during times k (.printing []) (List.range 21) printed with timeStr := shown times k } := rfl
  rw [during, ← hcopy]
  exact h.runFn hrun

/-- `strcpy` stores one of its bytes. -/
theorem reachable_copy (h : (system times).Reachable (during times k pc rest printed)) (hnodup : rest.Nodup)
    (hi : i ∈ rest) : (system times).Reachable (during times k pc (rest.erase i) printed) := by
  have hstep : step times (during times k pc rest printed) (.copy i) =
      some { during times k pc (rest.erase i) printed with
        timeStr := Function.update (mixture times k rest) i (shown times (k + 1) i) } := if_pos hi
  have hcopy : Function.update (mixture times k rest) i (shown times (k + 1) i) = mixture times k (rest.erase i) := by
    funext j
    by_cases hj : j = i
    · subst hj
      rw [Function.update_self, mixture, if_neg hnodup.not_mem_erase]
    · rw [Function.update_of_ne hj]
      simp only [mixture, List.mem_erase_of_ne hj]
  rw [hcopy] at hstep
  exact h.step hstep

/-- `printf` reads one of the two characters that it can find: `strcpy` has stored it, or has
    not yet. -/
theorem reachable_read (h : (system times).Reachable (during times k (.printing line) rest printed))
    (hnodup : rest.Nodup) (hrest : ∀ i, line.length ≤ i → i < 21 → i ∈ rest) {c : Char}
    (hmixed : Mixed times k (line ++ [c])) :
    ∃ rest', rest'.Nodup ∧ (∀ i, (line ++ [c]).length ≤ i → i < 21 → i ∈ rest') ∧
      (system times).Reachable (during times k (.printing (line ++ [c])) rest' printed) := by
  have hlen := hmixed.length_le
  rw [List.length_append, List.length_singleton] at hlen
  obtain ⟨hc, hshown⟩ := hmixed line.length c List.getElem?_concat_length
  have hmem : line.length ∈ rest := hrest line.length (Nat.le_refl _) (by omega)
  -- the step of `printf`, once the right character is there
  have hread : ∀ rest', (system times).Reachable (during times k (.printing line) rest' printed) →
      mixture times k rest' line.length = c →
        (system times).Reachable (during times k (.printing (line ++ [c])) rest' printed) := by
    intro rest' h' hchar
    refine h'.step (a := .wait) ?_
    rw [← hchar] at hc ⊢
    exact (if_pos (by omega)).trans (if_neg hc)
  rw [List.length_append, List.length_singleton]
  rcases hshown with hshown | hshown
  · refine ⟨rest.erase line.length, hnodup.erase _, fun i hi hi21 => ?_, ?_⟩
    · exact (List.mem_erase_of_ne (by omega)).2 (hrest i (by omega) hi21)
    · refine hread _ (reachable_copy h hnodup hmem) ?_
      rw [hshown]
      exact if_neg hnodup.not_mem_erase
  · refine ⟨rest, hnodup, fun i hi => hrest i (by omega), hread _ h ?_⟩
    rw [hshown]
    exact if_pos hmem

theorem reachable_line (h : (system times).Reachable (during times k (.printing []) (List.range 21) printed))
    (hmixed : Mixed times k line) :
    ∃ rest, rest.Nodup ∧ (∀ i, line.length ≤ i → i < 21 → i ∈ rest) ∧
      (system times).Reachable (during times k (.printing line) rest printed) := by
  induction line using List.reverseRecOn with
  | nil => exact ⟨List.range 21, List.nodup_range, fun i _ hi => List.mem_range.2 hi, h⟩
  | append_singleton line c ih =>
    have hinit : Mixed times k line := by
      intro j d hd
      have hj := (List.getElem?_eq_some_iff.1 hd).1
      exact hmixed j d (by rw [List.getElem?_append_left hj, hd])
    obtain ⟨rest, hnodup, hrest, h'⟩ := ih hinit
    exact reachable_read h' hnodup hrest hmixed

/-- `strcpy` stores the bytes that it has not stored yet. -/
theorem reachable_copies (h : (system times).Reachable (during times k pc rest printed)) (hnodup : rest.Nodup) :
    (system times).Reachable (during times k pc [] printed) := by
  induction rest with
  | nil => exact h
  | cons i rest ih =>
    have h' := reachable_copy h hnodup List.mem_cons_self
    rw [List.erase_cons_head] at h'
    exact ih h' (List.nodup_cons.1 hnodup).2

/-- **A round that prints a given line.** -/
theorem reachable_round (h : (system times).Reachable (top times k formatted printed))
    (hline : Printable times k line) :
    (system times).Reachable (top times (k + 1) (strftime (times k)) (printed ++ [line])) := by
  obtain ⟨hmixed, hnul⟩ := printable_iff.1 hline
  obtain ⟨rest, hnodup, hrest, h'⟩ := reachable_line (reachable_during h) hmixed
  have hlen := hmixed.length_le
  have hmem : line.length ∈ rest := hrest line.length (Nat.le_refl _) (by omega)
  -- the end of the line
  have hold : shown times k line.length = nul := by
    refine hnul.elim (fun hnul => ?_) id
    by_contra hne
    have hlt : line.length < 20 := by
      by_contra hge
      exact hne (shown_of_le (Nat.le_of_not_lt hge))
    exact shown_ne_nul hlt hnul
  have hend : (system times).Reachable (during times k .posting rest (printed ++ [line])) := by
    have hchar : mixture times k rest line.length = nul := by rw [mixture, if_pos hmem, hold]
    exact h'.step (a := .wait) ((if_pos (by omega)).trans (if_pos hchar))
  have hcopied := reachable_copies hend hnodup
  have hrun : runFn (step times) (during times k .posting [] (printed ++ [line])) [.post, .wait, .post] =
      some { top times (k + 1) (strftime (times k)) (printed ++ [line]) with timeStr := mixture times k [] } := rfl
  have hshown : shown times (k + 1) = mixture times k [] := by
    funext i
    rw [mixture, if_neg List.not_mem_nil]
  rw [top, hshown]
  exact hcopied.runFn hrun

theorem printable_strftime (k : ℕ) : Printable times k (strftime (times k)) := by
  cases k with
  | zero => exact List.prefix_rfl
  | succ k => exact ⟨rfl, fun j c hc => Or.inl hc⟩

theorem exists_reachable_top (times : ℕ → Tm) (k : ℕ) :
    ∃ formatted printed, printed.length = k ∧ (system times).Reachable (top times k formatted printed) := by
  induction k with
  | zero => exact ⟨[], [], rfl, reachable_top_zero⟩
  | succ k ih =>
    obtain ⟨formatted, printed, hlen, h⟩ := ih
    refine ⟨_, _, ?_, reachable_round h (printable_strftime k)⟩
    rw [List.length_append, List.length_singleton, hlen]

/-- **What the clock prints.**  The `k`-th line can be any mixture of the `k`-th time and of the
    one before, and nothing else; the first one can be any beginning of the first time. -/
theorem printed_iff (times : ℕ → Tm) (k : ℕ) (line : Text) :
    (∃ s, (system times).Reachable s ∧ s.printed[k]? = some line) ↔ Printable times k line := by
  constructor
  · rintro ⟨s, hs, hk⟩
    exact (inv_of_reachable hs).printed k line hk
  · intro hline
    obtain ⟨formatted, printed, hlen, h⟩ := exists_reachable_top times k
    refine ⟨_, reachable_round h hline, ?_⟩
    show (printed ++ [line])[k]? = some line
    rw [← hlen, List.getElem?_concat_length]

end Semaphores.Clock
