/-
  Text as the functions of the C library read and write it: the conversions
  `%d` and `%s` of `printf` and `scanf`, `strstr`, and the end of a string at
  its first NUL.
-/
import Mathlib.Algebra.Group.Nat.Defs
import Mathlib.Data.Int.Notation
import Mathlib.Data.List.TakeWhile
import Mathlib.Order.Basic
import Mathlib.Tactic.Common

/-- The bytes of a buffer, as characters. -/
abbrev Text := List Char

namespace Text

/-- The NUL character. -/
def nul : Char := Char.ofNat 0

/-- The C string in a buffer: the bytes before the first NUL. -/
def cstr (t : Text) : Text := t.takeWhile (· != nul)

theorem cstr_of_notMem {t : Text} (ht : nul ∉ t) : cstr t = t := by
  refine List.takeWhile_eq_self_iff.2 fun c hc => ?_
  simpa using fun h0 : c = nul => ht (h0 ▸ hc)

/-- What stands behind the first NUL does not count. -/
theorem cstr_append_cons (t u : Text) (ht : nul ∉ t) : cstr (t ++ nul :: u) = t := by
  have h : ∀ c ∈ t, (c != nul) = true := by
    intro c hc
    simpa using fun h0 : c = nul => ht (h0 ▸ hc)
  rw [cstr, List.takeWhile_append_of_pos h, List.takeWhile_cons_of_neg (by simp), List.append_nil]

theorem cstr_cons_of_ne {c : Char} (hc : c ≠ nul) (t : Text) : cstr (c :: t) = c :: cstr t :=
  List.takeWhile_cons_of_pos (by simpa using hc)

theorem cstr_append_of_mem {t : Text} (ht : nul ∈ t) (u : Text) : cstr (t ++ u) = cstr t := by
  induction t with
  | nil => cases ht
  | cons c t ih =>
    by_cases hc : c = nul
    · subst hc
      rfl
    · rw [List.cons_append, cstr_cons_of_ne hc, cstr_cons_of_ne hc,
        ih ((List.mem_cons.1 ht).resolve_left (Ne.symm hc))]

theorem cstr_append_of_notMem {t : Text} (ht : nul ∉ t) (u : Text) : cstr (t ++ u) = t ++ cstr u := by
  refine List.takeWhile_append_of_pos fun c hc => ?_
  simpa using fun h0 : c = nul => ht (h0 ▸ hc)

/-- A C string in a buffer that is longer. -/
theorem cstr_eq_iff {t u : Text} (hu : nul ∉ u) (hlen : u.length < t.length) : cstr t = u ↔ u ++ [nul] <+: t := by
  constructor
  · rintro rfl
    have hmem : nul ∈ t := by
      by_contra hno
      rw [cstr_of_notMem hno] at hlen
      exact absurd hlen (Nat.lt_irrefl _)
    obtain ⟨a, rest, rfl, ha⟩ := List.eq_append_cons_of_mem hmem
    rw [cstr_append_cons a rest ha]
    exact ⟨rest, by rw [List.append_assoc, List.singleton_append]⟩
  · rintro ⟨rest, rfl⟩
    rw [List.append_assoc, List.singleton_append]
    exact cstr_append_cons u rest hu

/-- `isspace`: blank, tab, newline, vertical tab, form feed, carriage return. -/
def isSpace (c : Char) : Bool := c == ' ' || (9 ≤ c.toNat && c.toNat ≤ 13)

/-- `strstr(t, pat) != NULL` -/
def strstr : Text → Text → Bool
  | [], pat => pat.isEmpty
  | c :: t, pat => pat.isPrefixOf (c :: t) || strstr t pat

/-! ## Writing and reading numbers -/

/-- `%d` of `printf` -/
def fmtInt (n : ℤ) : Text :=
  if n < 0 then '-' :: Nat.toDigits 10 n.natAbs else Nat.toDigits 10 n.natAbs

/-- The digits of `%d`, of which there must be one. -/
def scanDigits (t : Text) : Option (ℕ × Text) :=
  if t.takeWhile Char.isDigit = [] then none
  else some (Nat.ofDigitChars 10 (t.takeWhile Char.isDigit) 0, t.dropWhile Char.isDigit)

/-- `%d` of `scanf`, after white space. -/
def scanSigned : Text → Option (ℤ × Text)
  | '-' :: t => (scanDigits t).map fun r => (-(r.1 : ℤ), r.2)
  | '+' :: t => (scanDigits t).map fun r => ((r.1 : ℤ), r.2)
  | t => (scanDigits t).map fun r => ((r.1 : ℤ), r.2)

/-- `%d` of `scanf`: the number, and what is left of the text. -/
def scanInt (t : Text) : Option (ℤ × Text) := scanSigned (t.dropWhile isSpace)

/-- `%s` of `scanf`: the next word, and what is left of the text. -/
def scanWord (t : Text) : Option (Text × Text) :=
  let u := t.dropWhile isSpace
  if u.takeWhile (!isSpace ·) = [] then none
  else some (u.takeWhile (!isSpace ·), u.dropWhile (!isSpace ·))

/-- The text does not go on with a digit. -/
def NoDigit (t : Text) : Prop := ∀ c ∈ t.head?, c.isDigit = false

theorem noDigit_append {a : Text} (ha : a ≠ []) (b : Text) : NoDigit (a ++ b) ↔ NoDigit a := by
  obtain ⟨c, t, rfl⟩ := List.exists_cons_of_ne_nil ha
  rfl

theorem isDigit_toDigits {n : ℕ} {c : Char} (h : c ∈ Nat.toDigits 10 n) : c.isDigit = true :=
  Nat.isDigit_of_mem_toDigits (by decide) (by decide) h

theorem isSpace_of_isDigit {c : Char} (h : c.isDigit = true) : isSpace c = false := by
  simp only [Char.isDigit, Bool.and_eq_true, decide_eq_true_eq, UInt32.le_iff_toNat_le] at h
  have h1 : 48 ≤ c.toNat := h.1
  have hc : c ≠ ' ' := by rintro rfl; revert h1; decide
  simp [isSpace, hc]
  omega

theorem takeWhile_append_stop {p : Char → Bool} {a b : Text} (ha : ∀ c ∈ a, p c = true)
    (hb : ∀ c ∈ b.head?, p c = false) :
    (a ++ b).takeWhile p = a ∧ (a ++ b).dropWhile p = b := by
  rw [List.takeWhile_append_of_pos ha, List.dropWhile_append_of_pos ha]
  cases b with
  | nil => simp
  | cons c b => simp [hb c (by simp)]

/-- Digits that stand right behind a number count as digits of it. -/
theorem scanDigits_append {n : ℕ} {ds rest : Text} (hds : ∀ c ∈ ds, c.isDigit = true) (h : NoDigit rest) :
    scanDigits (Nat.toDigits 10 n ++ (ds ++ rest)) = some (Nat.ofDigitChars 10 ds n, rest) := by
  have hall : ∀ c ∈ Nat.toDigits 10 n ++ ds, c.isDigit = true := by
    intro c hc
    rcases List.mem_append.1 hc with hc | hc
    · exact isDigit_toDigits hc
    · exact hds c hc
  obtain ⟨h1, h2⟩ := takeWhile_append_stop hall h
  rw [scanDigits, ← List.append_assoc, h1, h2, Nat.ofDigitChars_append, Nat.ofDigitChars_ten_toDigits]
  simp

theorem scanSigned_of_isDigit {d : Char} {t : Text} (hd : d.isDigit = true) :
    scanSigned (d :: t) = (scanDigits (d :: t)).map fun r => ((r.1 : ℤ), r.2) := by
  rw [scanSigned]
  · rintro u hu
    rw [(List.cons.inj hu).1] at hd
    revert hd
    decide
  · rintro u hu
    rw [(List.cons.inj hu).1] at hd
    revert hd
    decide

/-- A number begins with a digit or a minus sign, and so with no white space. -/
theorem fmtInt_cons (n : ℤ) : ∃ c t, fmtInt n = c :: t ∧ (c = '-' ∨ c.isDigit = true) := by
  obtain ⟨d, ds, hd⟩ := List.exists_cons_of_ne_nil (Nat.toDigits_ne_nil (n := n.natAbs) (b := 10))
  unfold fmtInt
  split_ifs
  · exact ⟨'-', _, rfl, .inl rfl⟩
  · exact ⟨d, ds, hd, .inr (isDigit_toDigits (by rw [hd]; simp))⟩

theorem mem_fmtInt {n : ℤ} {c : Char} (h : c ∈ fmtInt n) : c = '-' ∨ c.isDigit = true := by
  unfold fmtInt at h
  split_ifs at h
  · rcases List.mem_cons.1 h with h | h
    · exact .inl h
    · exact .inr (isDigit_toDigits h)
  · exact .inr (isDigit_toDigits h)

theorem isUpper_of_mem_fmtInt {n : ℤ} {c : Char} (h : c ∈ fmtInt n) : c.isUpper = false := by
  rcases mem_fmtInt h with rfl | h
  · decide
  · by_contra hu
    simp only [Char.isDigit, Bool.and_eq_true, decide_eq_true_eq, UInt32.le_iff_toNat_le] at h
    have hu : 'A'.val ≤ c.val ∧ c.val ≤ 'Z'.val := of_decide_eq_true (Bool.not_eq_false _ ▸ hu)
    have h1 : c.val.toNat ≤ 57 := h.2
    have h2 : 65 ≤ c.val.toNat := UInt32.le_iff_toNat_le.1 hu.1
    omega

/-- The number that is read when digits stand right behind `n`. -/
def extend (n : ℤ) (ds : Text) : ℤ :=
  if n < 0 then -(Nat.ofDigitChars 10 ds n.natAbs : ℤ) else Nat.ofDigitChars 10 ds n.natAbs

@[simp] theorem extend_nil (n : ℤ) : extend n [] = n := by
  unfold extend
  rw [Nat.ofDigitChars_nil]
  split_ifs <;> omega

/-- **What `%d` writes, `%d` reads**, and with it the digits that follow. -/
theorem scanInt_fmtInt_append (n : ℤ) {ds rest : Text} (hds : ∀ c ∈ ds, c.isDigit = true)
    (h : NoDigit rest) : scanInt (fmtInt n ++ (ds ++ rest)) = some (extend n ds, rest) := by
  have hskip : (fmtInt n ++ (ds ++ rest)).dropWhile isSpace = fmtInt n ++ (ds ++ rest) := by
    obtain ⟨c, t, hc, hd⟩ := fmtInt_cons n
    have : isSpace c = false := by
      rcases hd with rfl | hd
      · decide
      · exact isSpace_of_isDigit hd
    simp [hc, this]
  rw [scanInt, hskip, fmtInt, extend]
  split_ifs with hn
  · rw [List.cons_append, scanSigned, scanDigits_append hds h, Option.map_some]
  · obtain ⟨d, t, hd⟩ := List.exists_cons_of_ne_nil (Nat.toDigits_ne_nil (n := n.natAbs) (b := 10))
    have hdig : d.isDigit = true := isDigit_toDigits (n := n.natAbs) (by rw [hd]; simp)
    have hs : scanSigned (Nat.toDigits 10 n.natAbs ++ (ds ++ rest)) =
        (scanDigits (Nat.toDigits 10 n.natAbs ++ (ds ++ rest))).map fun r => ((r.1 : ℤ), r.2) := by
      rw [hd, List.cons_append, scanSigned_of_isDigit hdig]
    rw [hs, scanDigits_append hds h, Option.map_some]

theorem scanInt_fmtInt (n : ℤ) {rest : Text} (h : NoDigit rest) :
    scanInt (fmtInt n ++ rest) = some (n, rest) := by
  have hnone : ∀ c ∈ ([] : Text), c.isDigit = true := by simp
  have hread := scanInt_fmtInt_append n hnone h
  rwa [List.nil_append, extend_nil] at hread

theorem fmtInt_injective : Function.Injective fmtInt := by
  intro m n h
  have hnone : NoDigit [] := fun c hc => by cases hc
  have hm := scanInt_fmtInt m hnone
  rw [h, scanInt_fmtInt n hnone] at hm
  exact (Prod.mk.inj (Option.some.inj hm)).1.symm

/-- A number is read as `n` although the digits of `m` follow only if both are zero. -/
theorem extend_toDigits_eq_iff (n : ℤ) (m : ℕ) : extend n (Nat.toDigits 10 m) = n ↔ n = 0 ∧ m = 0 := by
  have hpow : 10 ≤ 10 ^ (Nat.toDigits 10 m).length := Nat.le_pow Nat.length_toDigits_pos
  have hmul : 10 * n.natAbs ≤ 10 ^ (Nat.toDigits 10 m).length * n.natAbs := Nat.mul_le_mul_right _ hpow
  unfold extend
  rw [Nat.ofDigitChars_eq_ofDigitChars_zero, Nat.ofDigitChars_ten_toDigits]
  constructor
  · intro h
    split_ifs at h <;> omega
  · rintro ⟨rfl, rfl⟩
    simp

theorem scanInt_cons_space {c : Char} {t : Text} (h : isSpace c = true) :
    scanInt (c :: t) = scanInt t := by
  simp [scanInt, h]

theorem scanWord_cons_space {c : Char} {t : Text} (h : isSpace c = true) :
    scanWord (c :: t) = scanWord t := by
  simp [scanWord, h]

/-- `%s` reads a word up to white space. -/
theorem scanWord_append {w rest : Text} (hne : w ≠ []) (hw : ∀ c ∈ w, isSpace c = false)
    (hr : ∀ c ∈ rest.head?, isSpace c = true) : scanWord (w ++ rest) = some (w, rest) := by
  obtain ⟨h1, h2⟩ := takeWhile_append_stop (p := (!isSpace ·)) (a := w) (b := rest)
    (fun c hc => by simp [hw c hc]) (fun c hc => by simp [hr c hc])
  have hskip : (w ++ rest).dropWhile isSpace = w ++ rest := by
    obtain ⟨c, u, rfl⟩ := List.exists_cons_of_ne_nil hne
    simp [hw c (by simp)]
  simp [scanWord, hskip, h1, h2, hne]

/-! ## What a conversion takes from the text -/

theorem ofDigitChars_lt {ds : Text} (h : ∀ c ∈ ds, c.isDigit = true) :
    Nat.ofDigitChars 10 ds 0 < 10 ^ ds.length := by
  induction ds with
  | nil => simp
  | cons d ds ih =>
    have h1 := ih fun c hc => h c (List.mem_cons_of_mem d hc)
    have hd : d.toNat ≤ 57 := by
      have := h d (List.mem_cons_self ..)
      simp only [Char.isDigit, Bool.and_eq_true, decide_eq_true_eq, UInt32.le_iff_toNat_le] at this
      exact this.2
    have h0 : '0'.toNat = 48 := rfl
    have hle : 10 ^ ds.length * (d.toNat - '0'.toNat) ≤ 10 ^ ds.length * 9 :=
      Nat.mul_le_mul_left _ (by omega)
    rw [Nat.ofDigitChars_cons, Nat.ofDigitChars_eq_ofDigitChars_zero, List.length_cons, Nat.pow_succ, Nat.mul_zero,
      Nat.zero_add]
    omega

/-- `%d` takes at least as many digits as it would write. -/
theorem scanDigits_spec {t rest : Text} {n : ℕ} (h : scanDigits t = some (n, rest)) :
    ∃ ds d, t = ds ++ d :: rest ∧ d.isDigit = true ∧ (Nat.toDigits 10 n).length ≤ ds.length + 1 := by
  unfold scanDigits at h
  split_ifs at h with hne
  obtain ⟨rfl, rfl⟩ := Prod.mk.inj (Option.some.inj h)
  have hdig : ∀ c ∈ t.takeWhile Char.isDigit, c.isDigit = true := fun _ => List.mem_takeWhile_imp
  refine ⟨(t.takeWhile Char.isDigit).dropLast, (t.takeWhile Char.isDigit).getLast hne, ?_,
    hdig _ (List.getLast_mem hne), ?_⟩
  · rw [List.append_cons, List.dropLast_concat_getLast, List.takeWhile_append_dropWhile]
  · have hpos := List.length_pos_iff.2 hne
    rw [List.length_dropLast, Nat.sub_add_cancel hpos, Nat.length_toDigits_le_iff (by decide) hpos]
    exact ofDigitChars_lt hdig

theorem length_fmtInt_natCast (n : ℕ) : (fmtInt n).length = (Nat.toDigits 10 n).length := by
  rw [fmtInt, if_neg (by omega), Int.natAbs_natCast]

theorem length_fmtInt_neg (n : ℕ) : (fmtInt (-n)).length ≤ (Nat.toDigits 10 n).length + 1 := by
  rw [fmtInt, Int.natAbs_neg, Int.natAbs_natCast]
  split_ifs <;> simp

/-- `%d` writes a sign at most before the digits. -/
theorem length_fmtInt_le {n : ℤ} {k : ℕ} (hk : 0 < k) (hn : n.natAbs < 10 ^ k) : (fmtInt n).length ≤ k + 1 := by
  have hdigits := (Nat.length_toDigits_le_iff (b := 10) (by decide) hk).2 hn
  unfold fmtInt
  split_ifs
  · rw [List.length_cons]
    omega
  · omega

/-- `%d` takes white space, and then at least as many characters as it would
    write, the last of which is a digit. -/
theorem scanInt_spec {t rest : Text} {n : ℤ} (h : scanInt t = some (n, rest)) :
    ∃ num d, t = t.takeWhile isSpace ++ (num ++ d :: rest) ∧ d.isDigit = true ∧
      (fmtInt n).length ≤ num.length + 1 := by
  have key : ∃ num d, t.dropWhile isSpace = num ++ d :: rest ∧ d.isDigit = true ∧
      (fmtInt n).length ≤ num.length + 1 := by
    unfold scanInt scanSigned at h
    split at h
    all_goals
      obtain ⟨⟨k, u⟩, hk, he⟩ := Option.map_eq_some_iff.1 h
      obtain ⟨rfl, rfl⟩ := Prod.mk.inj he
      obtain ⟨ds, d, hds, hd, hlen⟩ := scanDigits_spec hk
    · rename_i t' ht
      exact ⟨'-' :: ds, d, by rw [ht, hds]; rfl, hd,
        (length_fmtInt_neg k).trans (by simp; omega)⟩
    · rename_i t' ht
      exact ⟨'+' :: ds, d, by rw [ht, hds]; rfl, hd,
        (length_fmtInt_natCast k).le.trans (by simp; omega)⟩
    · exact ⟨ds, d, hds, hd, (length_fmtInt_natCast k).le.trans hlen⟩
  obtain ⟨num, d, hk, hd, hlen⟩ := key
  exact ⟨num, d, by rw [← hk, List.takeWhile_append_dropWhile], hd, hlen⟩

/-- `%s` takes white space and a word, and stops at white space. -/
theorem scanWord_spec {t w rest : Text} (h : scanWord t = some (w, rest)) :
    t = t.takeWhile isSpace ++ (w ++ rest) ∧ ∀ c ∈ rest.head?, isSpace c = true := by
  unfold scanWord at h
  simp only at h
  split_ifs at h with hne
  obtain ⟨rfl, rfl⟩ := Prod.mk.inj (Option.some.inj h)
  refine ⟨by simp only [List.takeWhile_append_dropWhile], fun c hc => ?_⟩
  have := List.head?_dropWhile_not (fun c => !isSpace c) (t.dropWhile isSpace)
  rw [Option.mem_def.1 hc] at this
  simpa using this

/-! ## The texts that a conversion accepts -/

/-- White space only. -/
def Blank (t : Text) : Prop := ∀ c ∈ t, isSpace c = true

/-- A word: no white space. -/
def Solid (t : Text) : Prop := ∀ c ∈ t, isSpace c = false

/-- What `%d` accepts: a sign, if there is one, and digits. -/
def IsNumeral (t : Text) : Prop :=
  ∃ ds : Text, ds ≠ [] ∧ (∀ c ∈ ds, c.isDigit = true) ∧ (t = ds ∨ t = '-' :: ds ∨ t = '+' :: ds)

theorem scanDigits_iff {t rest : Text} : (∃ n, scanDigits t = some (n, rest)) ↔
    ∃ ds : Text, ds ≠ [] ∧ (∀ c ∈ ds, c.isDigit = true) ∧ t = ds ++ rest ∧ NoDigit rest := by
  constructor
  · rintro ⟨n, h⟩
    unfold scanDigits at h
    split_ifs at h with hne
    obtain ⟨-, rfl⟩ := Prod.mk.inj (Option.some.inj h)
    refine ⟨t.takeWhile Char.isDigit, hne, fun _ => List.mem_takeWhile_imp,
      List.takeWhile_append_dropWhile.symm, fun c hc => ?_⟩
    have hstop := List.head?_dropWhile_not Char.isDigit t
    rwa [Option.mem_def.1 hc] at hstop
  · rintro ⟨ds, hne, hds, rfl, hrest⟩
    obtain ⟨h1, h2⟩ := takeWhile_append_stop hds hrest
    exact ⟨_, by rw [scanDigits, h1, if_neg hne, h2]⟩

theorem scanSigned_iff {t rest : Text} : (∃ n, scanSigned t = some (n, rest)) ↔
    ∃ num, IsNumeral num ∧ t = num ++ rest ∧ NoDigit rest := by
  constructor
  · rintro ⟨n, h⟩
    unfold scanSigned at h
    split at h
    all_goals
      obtain ⟨⟨k, u⟩, hk, he⟩ := Option.map_eq_some_iff.1 h
      obtain ⟨-, rfl⟩ := Prod.mk.inj he
      obtain ⟨ds, hne, hds, rfl, hrest⟩ := scanDigits_iff.1 ⟨k, hk⟩
    · exact ⟨'-' :: ds, ⟨ds, hne, hds, .inr (.inl rfl)⟩, rfl, hrest⟩
    · exact ⟨'+' :: ds, ⟨ds, hne, hds, .inr (.inr rfl)⟩, rfl, hrest⟩
    · exact ⟨ds, ⟨ds, hne, hds, .inl rfl⟩, rfl, hrest⟩
  · rintro ⟨num, ⟨ds, hne, hds, hnum⟩, rfl, hrest⟩
    obtain ⟨k, hk⟩ := scanDigits_iff.2 ⟨ds, hne, hds, rfl, hrest⟩
    rcases hnum with rfl | rfl | rfl
    · obtain ⟨d, t, rfl⟩ := List.exists_cons_of_ne_nil hne
      exact ⟨k, by rw [List.cons_append, scanSigned_of_isDigit (hds d List.mem_cons_self), ← List.cons_append, hk]; rfl⟩
    · exact ⟨-k, by rw [List.cons_append, scanSigned, hk]; rfl⟩
    · exact ⟨k, by rw [List.cons_append, scanSigned, hk]; rfl⟩

theorem IsNumeral.head {num : Text} (h : IsNumeral num) : ∃ c t, num = c :: t ∧ isSpace c = false := by
  obtain ⟨ds, hne, hds, rfl | rfl | rfl⟩ := h
  · obtain ⟨d, t, rfl⟩ := List.exists_cons_of_ne_nil hne
    exact ⟨d, t, rfl, isSpace_of_isDigit (hds d List.mem_cons_self)⟩
  · exact ⟨'-', ds, rfl, rfl⟩
  · exact ⟨'+', ds, rfl, rfl⟩

/-- **What `%d` accepts** is white space and the longest number behind it. -/
theorem scanInt_iff {t rest : Text} : (∃ n, scanInt t = some (n, rest)) ↔
    ∃ ws num, Blank ws ∧ IsNumeral num ∧ t = ws ++ (num ++ rest) ∧ NoDigit rest := by
  unfold scanInt
  rw [scanSigned_iff]
  constructor
  · rintro ⟨num, hnum, ht, hrest⟩
    exact ⟨t.takeWhile isSpace, num, fun _ => List.mem_takeWhile_imp, hnum,
      by rw [← ht, List.takeWhile_append_dropWhile], hrest⟩
  · rintro ⟨ws, num, hws, hnum, rfl, hrest⟩
    obtain ⟨c, u, rfl, hc⟩ := hnum.head
    exact ⟨c :: u, hnum, (takeWhile_append_stop hws (by simpa using hc)).2, hrest⟩

/-- **What `%s` accepts** is white space and the word behind it. -/
theorem scanWord_iff {t w rest : Text} : scanWord t = some (w, rest) ↔
    ∃ ws, Blank ws ∧ w ≠ [] ∧ Solid w ∧ t = ws ++ (w ++ rest) ∧ ∀ c ∈ rest.head?, isSpace c = true := by
  constructor
  · intro h
    obtain ⟨ht, hrest⟩ := scanWord_spec h
    unfold scanWord at h
    simp only at h
    split_ifs at h with hne
    obtain ⟨rfl, -⟩ := Prod.mk.inj (Option.some.inj h)
    refine ⟨_, fun _ => List.mem_takeWhile_imp, hne, fun c hc => ?_, ht, hrest⟩
    simpa using List.mem_takeWhile_imp hc
  · rintro ⟨ws, hws, hne, hw, rfl, hrest⟩
    obtain ⟨c, u, rfl⟩ := List.exists_cons_of_ne_nil hne
    have hskip : (ws ++ (c :: u ++ rest)).dropWhile isSpace = c :: u ++ rest :=
      (takeWhile_append_stop hws (by simpa using hw c List.mem_cons_self)).2
    obtain ⟨h1, h2⟩ := takeWhile_append_stop (p := (!isSpace ·)) (a := c :: u) (b := rest)
      (fun d hd => by simp [hw d hd]) (fun d hd => by simp [hrest d hd])
    simp only [scanWord, hskip, h1, h2, if_neg hne]

/-! ## Searching -/

theorem strstr_append (pat t : Text) : strstr (pat ++ t) pat = true := by
  cases h : pat ++ t with
  | nil => simp [strstr, (List.append_eq_nil_iff.1 h).1]
  | cons c u => simp [strstr, ← h]

/-- A text without some character of the pattern does not contain the pattern. -/
theorem strstr_eq_false {t pat : Text} {c : Char} (hc : c ∈ pat) (ht : c ∉ t) :
    strstr t pat = false := by
  induction t with
  | nil => cases pat with
    | nil => simp at hc
    | cons => rfl
  | cons d t ih =>
    simp only [strstr, Bool.or_eq_false_iff]
    refine ⟨?_, ih fun h => ht (List.mem_cons_of_mem _ h)⟩
    by_contra hp
    have hp : pat <+: d :: t := by simpa using hp
    exact ht (hp.subset hc)

end Text
