/-
  The maximal runs of digits of a text, their values, and what becomes of both
  when the text goes on.
-/
import Mathlib.Data.List.DropRight
import OsCourse.Lib.Text

namespace Text

/-- The maximal runs of digits, in order. -/
def runs (t : Text) : List Text := (t.splitOnP fun c => !c.isDigit).filter fun w => !w.isEmpty

/-- The value of a run of digits. -/
def value (w : Text) : ℕ := Nat.ofDigitChars 10 w 0

@[simp] theorem runs_nil : runs [] = [] := rfl

theorem runs_digits {w : Text} (hw : ∀ c ∈ w, c.isDigit = true) :
    runs w = if w = [] then [] else [w] := by
  have : ∀ c ∈ w, (!c.isDigit) = false := fun c hc => by simp [hw c hc]
  rw [runs, List.splitOnP_eq_singleton this]
  cases w <;> simp

theorem runs_append_cons (t u : Text) {c : Char} (hc : c.isDigit = false) :
    runs (t ++ c :: u) = runs t ++ runs u := by
  rw [runs, List.splitOnP_append_cons _ _ (by simp [hc]), List.filter_append]; rfl

theorem runs_cons (u : Text) {c : Char} (hc : c.isDigit = false) : runs (c :: u) = runs u :=
  runs_append_cons [] u hc

/-- A text that begins with no digit ends the last run of the text before it. -/
theorem runs_append_of_noDigit (t : Text) {u : Text} (hu : NoDigit u) :
    runs (t ++ u) = runs t ++ runs u := by
  cases u with
  | nil => simp
  | cons c u =>
    have hc : c.isDigit = false := hu c (by simp)
    rw [runs_append_cons t u hc, runs_cons u hc]

theorem noDigit_dropWhile (t : Text) : NoDigit (t.dropWhile Char.isDigit) := by
  intro c hc
  have := List.head?_dropWhile_not Char.isDigit t
  rw [Option.mem_def.1 hc] at this
  simpa using this

/-- The pieces of a text hold no separator. -/
theorem of_mem_splitOnP {p : Char → Bool} {t w : Text} (h : w ∈ t.splitOnP p) : ∀ c ∈ w, p c = false := by
  induction t generalizing w with
  | nil =>
    obtain rfl := List.mem_singleton.1 h
    simp
  | cons d t ih =>
    rw [List.splitOnP_cons_eq_if_modifyHead] at h
    split_ifs at h with hd
    · rcases List.mem_cons.1 h with rfl | h
      · simp
      · exact ih h
    · obtain ⟨u, us, hu⟩ := List.exists_cons_of_ne_nil (List.splitOnP_ne_nil p t)
      rw [hu] at h ih
      rcases List.mem_cons.1 h with rfl | h
      · intro c hc
        rcases List.mem_cons.1 hc with rfl | hc
        · simpa using hd
        · exact ih List.mem_cons_self c hc
      · exact ih (List.mem_cons_of_mem u h)

/-- A run holds digits, and at least one. -/
theorem mem_runs {t w : Text} (h : w ∈ runs t) : w ≠ [] ∧ ∀ c ∈ w, c.isDigit = true := by
  obtain ⟨hw, hne⟩ := List.mem_filter.1 h
  refine ⟨by simpa using hne, fun c hc => ?_⟩
  simpa using of_mem_splitOnP hw c hc

theorem runs_eq_nil_iff {t : Text} : runs t = [] ↔ ∀ c ∈ t, c.isDigit = false := by
  induction t with
  | nil => simp
  | cons c t ih =>
    cases hc : c.isDigit with
    | false => simp [runs_cons t hc, ih, hc]
    | true =>
      have hdig : ∀ d ∈ (c :: t).takeWhile Char.isDigit, d.isDigit = true := fun _ => List.mem_takeWhile_imp
      have hne : (c :: t).takeWhile Char.isDigit ≠ [] := by simp [hc]
      have heq := runs_append_of_noDigit ((c :: t).takeWhile Char.isDigit) (noDigit_dropWhile (c :: t))
      rw [List.takeWhile_append_dropWhile, runs_digits hdig, if_neg hne] at heq
      simp [heq, hc]

/-- The text before the last digits does not run on into them. -/
theorem runs_rdropWhile_append (t u : Text) :
    runs (t.rdropWhile Char.isDigit ++ u) = runs (t.rdropWhile Char.isDigit) ++ runs u := by
  rcases List.eq_nil_or_concat (t.rdropWhile Char.isDigit) with h | ⟨l, c, h⟩
  · simp [h]
  · have hc : c.isDigit = false := by
      have := List.rdropWhile_last_not Char.isDigit t (by rw [h]; simp)
      simpa [h] using this
    rw [h, List.concat_eq_append, List.append_assoc, List.singleton_append, runs_append_cons l u hc,
      runs_append_cons l [] hc, runs_nil, List.append_nil]

/-! ## Values -/

theorem value_append (w ds : Text) : value (w ++ ds) = 10 ^ ds.length * value w + value ds := by
  rw [value, Nat.ofDigitChars_append, Nat.ofDigitChars_eq_ofDigitChars_zero]; rfl

theorem value_concat (w : Text) (d : Char) : value (w ++ [d]) = 10 * value w + (d.toNat - '0'.toNat) := by
  rw [value_append]; simp [value, Nat.ofDigitChars_cons]

theorem isDigit_toNat {c : Char} (h : c.isDigit = true) : 48 ≤ c.toNat ∧ c.toNat ≤ 57 := by
  simp only [Char.isDigit, Bool.and_eq_true, decide_eq_true_eq, UInt32.le_iff_toNat_le] at h
  exact h

/-- **A longer run of digits is a longer number**, except for leading zeros. -/
theorem toDigits_value_append {w ds : Text} (hds : ∀ c ∈ ds, c.isDigit = true) (hw : value w ≠ 0) :
    Nat.toDigits 10 (value (w ++ ds)) = Nat.toDigits 10 (value w) ++ ds := by
  induction ds using List.reverseRecOn with
  | nil => simp
  | append_singleton ds d ih =>
    have hd := isDigit_toNat (hds d (by simp))
    have h0 : '0'.toNat = 48 := rfl
    have hpos : 0 < value (w ++ ds) := by
      rw [value_append]
      have : 0 < 10 ^ ds.length * value w := Nat.mul_pos (Nat.pow_pos (by decide)) (Nat.pos_of_ne_zero hw)
      omega
    have hlt : d.toNat - '0'.toNat < 10 := by omega
    rw [← List.append_assoc, value_concat, ← Nat.toDigits_append_toDigits (by decide) hpos hlt,
      ih fun c hc => hds c (by simp [hc]), Nat.toDigits_of_lt_base hlt, List.append_assoc]
    have hchar : (d.toNat - '0'.toNat).digitChar = d := by
      refine Char.toNat_inj.1 ?_
      rw [Nat.toNat_digitChar_of_lt_ten hlt]; omega
    rw [hchar]

/-- Only zero begins with a zero. -/
theorem head_toDigits_ne {n : ℕ} (hn : n ≠ 0) : (Nat.toDigits 10 n).head? ≠ some '0' := by
  induction n using Nat.strong_induction_on with
  | _ n ih =>
    by_cases h10 : n < 10
    · rw [Nat.toDigits_of_lt_base h10]
      simp [hn]
    · rw [Nat.toDigits_of_base_le (by decide) (by omega), List.head?_append_of_ne_nil _ Nat.toDigits_ne_nil]
      exact ih (n / 10) (by omega) (by omega)

/-- The digits in front of another character are determined by any text that goes on as
    this one does. -/
theorem eq_of_prefix {ds ds' u u' : Text} {c c' : Char} (hds : ∀ x ∈ ds, x.isDigit = true)
    (hds' : ∀ x ∈ ds', x.isDigit = true) (hc : c.isDigit = false) (hc' : c'.isDigit = false)
    (h : ds ++ c :: u <+: ds' ++ c' :: u') : ds = ds' := by
  obtain ⟨v, hv⟩ := h
  have h1 := takeWhile_append_stop (p := Char.isDigit) (a := ds) (b := c :: (u ++ v)) hds (by simpa using hc)
  have h2 := takeWhile_append_stop (p := Char.isDigit) (a := ds') (b := c' :: u') hds' (by simpa using hc')
  rw [List.append_assoc, List.cons_append] at hv
  rw [← h1.1, ← h2.1, hv]

end Text
