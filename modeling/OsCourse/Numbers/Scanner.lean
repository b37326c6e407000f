/-
  The two functions of p2 (idz os 1/9), `find_all_numbers` and `make_string_from_array`:
  what the first finds in any string, that it undoes the second, and when the second stays
  in its buffers.
-/
import Mathlib.Algebra.GroupWithZero.Nat
import Mathlib.Algebra.Order.BigOperators.Group.List
import Mathlib.Algebra.Order.Group.Nat
import OsCourse.Lib.Tickets
import OsCourse.Numbers.Report

namespace Numbers.V9

open Text Tickets

/-- `atoi`: an `int` for every string, and the value of a string of digits if that is one. -/
structure Atoi where
  run : Text → ℤ
  int : ∀ w, -2147483648 ≤ run w ∧ run w ≤ 2147483647
  digits : ∀ w, w ≠ [] → (∀ c ∈ w, c.isDigit = true) → value w ≤ 2147483647 → run w = value w

/-- `(int) strtol(nptr, NULL, 10)`: a `long` at most, and of that the lower 32 bits. -/
def strtol (w : Text) : ℤ := (BitVec.ofNat 32 (min (value w) 9223372036854775807)).toInt

theorem strtol_int (w : Text) : -2147483648 ≤ strtol w ∧ strtol w ≤ 2147483647 :=
  ⟨BitVec.le_toInt _, Int.le_of_lt_add_one (BitVec.toInt_lt)⟩

theorem strtol_digits (w : Text) (_ : w ≠ []) (_ : ∀ c ∈ w, c.isDigit = true) (h : value w ≤ 2147483647) :
    strtol w = value w := by
  rw [strtol, Nat.min_eq_left (by omega)]
  exact toInt_ofNat (by omega)

def Atoi.ofStrtol : Atoi := { run := strtol, int := strtol_int, digits := strtol_digits }

def findAllNumbers (atoi : Atoi) (string : Text) : Option (List ℤ) :=
  findAllNumbersWith (fun w => some (atoi.run w)) string

variable {atoi : Atoi} {string : Text} {arr : List ℤ} {usable : ℕ → ℕ}

/-! ## What is found -/

theorem mapM_run (l : List Text) : l.mapM (fun w => some (atoi.run w)) = some (l.map atoi.run) := by
  induction l with
  | nil => rfl
  | cons w l ih =>
    rw [List.mapM_cons, ih]
    rfl

theorem findAllNumbers_eq (h : nul ∈ string) :
    findAllNumbers atoi string = some ((runs (cstr string)).map atoi.run) := by
  rw [findAllNumbers, findAllNumbersWith_eq, if_pos h, mapM_run]

/-- **All runs of digits, and nothing else**: as many numbers as there are runs, each the
    value of its run if all are `int`s; and no write outside of the arrays. -/
theorem found (atoi : Atoi) (string : Text) (h : nul ∈ string) : ∃ arr, findAllNumbers atoi string = some arr ∧
    arr.length = (runs (cstr string)).length ∧
      ((∀ w ∈ runs (cstr string), value w ≤ 2147483647) → arr = numbers (cstr string)) := by
  refine ⟨_, findAllNumbers_eq h, List.length_map _, fun hv => ?_⟩
  rw [numbers]
  refine List.map_congr_left fun w hw => ?_
  obtain ⟨hne, hdig⟩ := mem_runs hw
  exact atoi.digits w hne hdig (hv w hw)

/-- Two runs, the second with zeros in front and the end behind it. -/
def mixed : Text := "a12, 007".toList ++ [nul]

theorem found_mixed : findAllNumbers .ofStrtol mixed = some [12, 7] := by
  obtain ⟨arr, h, -, hv⟩ := found .ofStrtol mixed (by decide)
  rw [h, hv (by decide)]
  decide

/-! ## Reading an answer -/

theorem runs_noDigit_append {t : Text} (ht : t.all (! ·.isDigit) = true) (u : Text) : runs (t ++ u) = runs u := by
  induction t with
  | nil => rfl
  | cons c t ih =>
    rw [List.all_cons, Bool.and_eq_true, Bool.not_eq_true'] at ht
    rw [List.cons_append, runs_cons _ ht.1, ih ht.2]

theorem runs_toDigits_cons (n : ℕ) {c : Char} (hc : c.isDigit = false) (u : Text) :
    runs (Nat.toDigits 10 n ++ c :: u) = Nat.toDigits 10 n :: runs u := by
  rw [runs_append_cons _ _ hc, runs_digits fun _ => isDigit_toDigits, if_neg Nat.toDigits_ne_nil]
  rfl

/-- The separators keep the numbers apart. -/
theorem runs_intercalate (l : List ℕ) :
    runs (List.intercalate [',', ' '] (l.map (Nat.toDigits 10))) = l.map (Nat.toDigits 10) := by
  induction l with
  | nil => rfl
  | cons a l ih =>
    cases l with
    | nil =>
      rw [List.map_singleton, List.intercalate_singleton, runs_digits fun _ => isDigit_toDigits,
        if_neg Nat.toDigits_ne_nil]
    | cons b l =>
      rw [List.map_cons, List.map_cons, List.intercalate_cons_cons, ← List.map_cons, List.append_assoc,
        List.cons_append, runs_toDigits_cons a (by decide), List.singleton_append, runs_cons _ (by decide), ih]

/-- The runs of an answer: how many numbers, and the numbers. -/
theorem runs_answer (l : List ℕ) :
    runs (answer (l.map Nat.cast)) = Nat.toDigits 10 l.length :: l.map (Nat.toDigits 10) := by
  have hmap : (l.map (Nat.cast : ℕ → ℤ)).map fmtInt = l.map (Nat.toDigits 10) := by
    rw [List.map_map]
    exact List.map_congr_left fun a _ => fmtInt_natCast a
  rw [answer, hmap, List.length_map, header_append, runs_noDigit_append (by decide),
    runs_toDigits_cons _ (by decide), runs_noDigit_append (by decide), runs_intercalate]

theorem nul_notMem_fmtInt (n : ℤ) : nul ∉ fmtInt n := by
  intro h
  rcases mem_fmtInt h with h | h <;> exact absurd h (by decide)

theorem nul_notMem_answer (arr : List ℤ) : nul ∉ answer arr := by
  have hinter : ∀ l : List ℤ, nul ∉ List.intercalate [',', ' '] (l.map fmtInt) := by
    intro l
    induction l with
    | nil => simp
    | cons a l ih =>
      cases l with
      | nil =>
        rw [List.map_singleton, List.intercalate_singleton]
        exact nul_notMem_fmtInt a
      | cons b l =>
        rw [List.map_cons, List.map_cons, List.intercalate_cons_cons, ← List.map_cons, List.mem_append,
          List.mem_append]
        rintro ((h | h) | h)
        · exact nul_notMem_fmtInt a h
        · exact absurd h (by decide)
        · exact ih h
  rw [answer, header_append, List.mem_append, List.mem_append, List.mem_cons, List.mem_append]
  rintro (h | h | h | h | h)
  · exact absurd h (by decide)
  · exact absurd (isDigit_toDigits h) (by decide)
  · exact absurd h (by decide)
  · exact absurd h (by decide)
  · exact hinter arr h

/-- **The scanner reads what the formatter writes**: the answer, when it fits into its
    block, is read as the number of the numbers and the numbers. -/
theorem found_of_made (atoi : Atoi) (usable : ℕ → ℕ) (arr : List ℤ)
    (harr : ∀ a ∈ arr, 0 ≤ a ∧ a ≤ 2147483647) (hn : arr.length ≤ 2147483647)
    (hroom : (answer arr).length < usable (11 + 14 * arr.length)) :
    ∃ string, makeStringFromArray usable arr = some string ∧
      findAllNumbers atoi (string ++ [nul]) = some ((arr.length : ℤ) :: arr) := by
  obtain ⟨l, rfl⟩ : ∃ l : List ℕ, arr = l.map Nat.cast := by
    refine ⟨arr.map Int.toNat, ?_⟩
    rw [List.map_map]
    refine (List.map_id arr).symm.trans (List.map_congr_left fun a ha => ?_)
    exact (Int.toNat_of_nonneg (harr a ha).1).symm
  have hl : ∀ a ∈ l, a ≤ 2147483647 := fun a ha => by
    have := (harr a (List.mem_map_of_mem ha)).2
    omega
  have hfits : ∀ a ∈ l.map (Nat.cast : ℕ → ℤ), (fmtInt a).length < maxNumberLength := fun a ha =>
    length_fmtInt_of_int (Int.le_trans (by decide) (harr a ha).1) (harr a ha).2
  refine ⟨answer (l.map Nat.cast), ?_, ?_⟩
  · rw [makeStringFromArray_eq usable hfits, if_pos hroom]
  · rw [List.length_map] at hn
    have hrun : ∀ n : ℕ, n ≤ 2147483647 → atoi.run (Nat.toDigits 10 n) = n := by
      intro n hn
      have hv : value (Nat.toDigits 10 n) = n := Nat.ofDigitChars_ten_toDigits
      rw [atoi.digits _ Nat.toDigits_ne_nil (fun c hc => isDigit_toDigits hc) (by rwa [hv]), hv]
    rw [findAllNumbers_eq (by simp), cstr_append_cons _ _ (nul_notMem_answer _), runs_answer, List.map_cons,
      List.map_map, hrun _ hn, List.length_map]
    refine congrArg (fun l => some (_ :: l)) (List.map_congr_left fun a ha => ?_)
    exact hrun a (hl a ha)

theorem found_of_made_three : ∃ string, makeStringFromArray id [5, 0, 2147483647] = some string ∧
    findAllNumbers .ofStrtol (string ++ [nul]) = some [3, 5, 0, 2147483647] :=
  found_of_made .ofStrtol id [5, 0, 2147483647] (by decide) (by decide) (by decide)

/-! ## The buffers -/

theorem length_intercalate (arr : List ℤ) : (List.intercalate [',', ' '] (arr.map fmtInt)).length =
    (arr.map fun a => (fmtInt a).length).sum + 2 * (arr.length - 1) := by
  induction arr with
  | nil => rfl
  | cons a arr ih =>
    cases arr with
    | nil => simp
    | cons b arr =>
      rw [List.map_cons, List.map_cons, List.intercalate_cons_cons, ← List.map_cons, List.length_append,
        List.length_append, ih, List.map_cons (a := a), List.sum_cons]
      simp only [List.length_cons, List.length_nil]
      omega

theorem length_header (n : ℕ) : (header n).length = 20 + (Nat.toDigits 10 n).length := by
  have h1 : "there are ".toList.length = 10 := rfl
  have h2 : "numbers: ".toList.length = 9 := rfl
  unfold header
  rw [List.length_append, List.length_append, List.length_cons, h1, h2]
  omega

theorem length_answer (arr : List ℤ) : (answer arr).length = 20 + (Nat.toDigits 10 arr.length).length +
    ((arr.map fun a => (fmtInt a).length).sum + 2 * (arr.length - 1)) := by
  rw [answer, List.length_append, length_header, length_intercalate]

/-- The numbers that are found are `int`s, and each fits into `number_str`. -/
theorem length_fmtInt_of_found (h : findAllNumbers atoi string = some arr) :
    ∀ a ∈ arr, (fmtInt a).length < maxNumberLength := by
  rw [findAllNumbers, findAllNumbersWith_eq] at h
  split_ifs at h
  rw [mapM_run] at h
  obtain rfl := Option.some.inj h
  intro a ha
  obtain ⟨w, -, rfl⟩ := List.mem_map.1 ha
  exact length_fmtInt_of_int (atoi.int w).1 (atoi.int w).2

/-- The count of the numbers has few digits. -/
theorem length_toDigits_add_eight_le {n : ℕ} (h : 9 ≤ n) : (Nat.toDigits 10 n).length + 8 ≤ n := by
  have hpow : ∀ k, k + 9 < 10 ^ (k + 1) := by
    intro k
    induction k with
    | zero => decide
    | succ k ih =>
      rw [Nat.pow_succ]
      omega
  obtain ⟨k, rfl⟩ := Nat.exists_eq_add_of_le' h
  have := (Nat.length_toDigits_le_iff (b := 10) (n := k + 9) (k := k + 1) (by decide) (by omega)).2 (hpow k)
  omega

/-- The string stays in its block, `usable n = n`: with nine numbers or more always, with
    one to eight if they are short enough, and never without numbers. -/
theorem answer_fits_iff (harr : ∀ a ∈ arr, (fmtInt a).length < maxNumberLength) :
    (answer arr).length < 11 + 14 * arr.length ↔
      9 ≤ arr.length ∨ 1 ≤ arr.length ∧ (arr.map fun a => (fmtInt a).length).sum + 9 ≤ 12 * arr.length := by
  have hsum : (arr.map fun a => (fmtInt a).length).sum ≤ arr.length * 11 := by
    have h11 : ∀ n ∈ arr.map fun a => (fmtInt a).length, n ≤ 11 := by
      intro n hn
      obtain ⟨a, ha, rfl⟩ := List.mem_map.1 hn
      exact Nat.le_of_lt_succ (harr a ha)
    simpa using List.sum_le_card_nsmul _ 11 h11
  have hlen := length_answer arr
  by_cases h9 : 9 ≤ arr.length
  · have := length_toDigits_add_eight_le h9
    exact iff_of_true (by omega) (Or.inl h9)
  · have h1 : (Nat.toDigits 10 arr.length).length = 1 := by
      rw [Nat.toDigits_of_lt_base (by omega)]
      rfl
    omega

/-- **The string is written inside of its buffers** exactly if there are nine numbers or
    more, or some with few digits. -/
theorem isSome_made_iff (atoi : Atoi) (string : Text) {arr : List ℤ}
    (h : findAllNumbers atoi string = some arr) : (makeStringFromArray id arr).isSome ↔
    9 ≤ arr.length ∨ 1 ≤ arr.length ∧ (arr.map fun a => (fmtInt a).length).sum + 9 ≤ 12 * arr.length := by
  have harr := length_fmtInt_of_found h
  rw [← answer_fits_iff harr, makeStringFromArray_eq id harr, id]
  split_ifs with hfits
  · exact iff_of_true rfl hfits
  · exact iff_of_false (by simp) hfits

/-- A file without digits. -/
def noNumbers : Text := "no numbers".toList ++ [nul]

theorem not_made : ∃ arr, findAllNumbers .ofStrtol noNumbers = some arr ∧ ¬ (makeStringFromArray id arr).isSome :=
  ⟨[], by decide, by decide⟩

theorem isSome_made_iff_mixed : (makeStringFromArray id [12, 7]).isSome :=
  (isSome_made_iff .ofStrtol mixed (by decide)).2 (Or.inr (by decide))

end Numbers.V9
