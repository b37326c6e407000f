/-
  The number extractor (idz os 1/4), end to end: when the output file holds the
  numbers of the input file.
-/
import OsCourse.Numbers.Pipeline

namespace Numbers

open Text Transition System

/-- The values of the maximal runs of digits. -/
def numbers (t : Text) : List ℤ := (runs t).map fun w => (value w : ℤ)

/-- What is to be written for the text `t`. -/
def report (t : Text) : Text := answer (numbers t)

/-! ## The answer -/

theorem fmtInt_natCast (n : ℕ) : fmtInt (n : ℤ) = Nat.toDigits 10 n := by
  rw [fmtInt, if_neg (by omega), Int.natAbs_natCast]

/-- The part of the answer before the last number. -/
def answerInit (arr : List ℤ) : Text :=
  header (arr.length + 1) ++ arr.flatMap fun a => fmtInt a ++ [',', ' ']

theorem answer_concat (arr : List ℤ) (a : ℤ) : answer (arr ++ [a]) = answerInit arr ++ fmtInt a := by
  have h : ∀ l : List ℤ, List.intercalate [',', ' '] ((l ++ [a]).map fmtInt) =
      (l.flatMap fun a => fmtInt a ++ [',', ' ']) ++ fmtInt a := by
    intro l
    induction l with
    | nil => simp [List.intercalate]
    | cons b l ih =>
      obtain ⟨c, l', hl⟩ := List.exists_cons_of_ne_nil (l := l ++ [a]) (by simp)
      rw [List.cons_append, List.map_cons, hl, List.map_cons, List.intercalate_cons_cons, ← List.map_cons, ← hl, ih]
      simp
  rw [answer, h, answerInit, List.length_append, List.length_singleton, List.append_assoc]

theorem header_append (n : ℕ) (t : Text) :
    header n ++ t = "there are ".toList ++ (Nat.toDigits 10 n ++ ' ' :: ("numbers: ".toList ++ t)) := by
  unfold header
  rw [List.append_assoc, List.append_assoc, List.cons_append]

/-- An answer that goes on as another one does has the same number of numbers. -/
theorem length_eq_of_prefix {arr arr' : List ℤ} (h : answer arr <+: answer arr') :
    arr.length = arr'.length := by
  unfold answer at h
  rw [header_append, header_append] at h
  have h := (List.prefix_append_right_inj _).1 h
  have := eq_of_prefix (fun _ => isDigit_toDigits) (fun _ => isDigit_toDigits) (by decide) (by decide) h
  rw [← Nat.ofDigitChars_ten_toDigits (n := arr.length), this, Nat.ofDigitChars_ten_toDigits]

theorem header_ne_nil (n : ℕ) : header n ≠ [] := by
  intro h
  exact absurd (List.append_eq_nil_iff.1 h).2 (List.cons_ne_nil _ _)

theorem answer_ne_nil (arr : List ℤ) : answer arr ≠ [] := by
  intro h
  exact header_ne_nil _ (List.append_eq_nil_iff.1 h).1

/-! ## The numbers that are found -/

theorem atoi_eq_some {w : Text} {a : ℤ} : atoi w = some a ↔ value w ≤ 2147483647 ∧ (value w : ℤ) = a := by
  simp [atoi]

/-- When every call returns something. -/
theorem map_eq_of_mapM {α β : Type} {f : α → Option β} {l : List α} {l' : List β} (h : l.mapM f = some l') :
    l.map f = l'.map some := by
  induction l generalizing l' with
  | nil =>
    obtain rfl : [] = l' := by simpa using h
    rfl
  | cons a l ih =>
    simp only [List.mapM_cons, Option.bind_eq_bind, Option.bind_eq_some_iff, Option.pure_def,
      Option.some.injEq] at h
    obtain ⟨b, hb, l'', hl, rfl⟩ := h
    rw [List.map_cons, List.map_cons, hb, ih hl]

theorem mem_mapM {α β : Type} {f : α → Option β} {l : List α} {l' : List β} (h : l.mapM f = some l') :
    ∀ b ∈ l', ∃ a ∈ l, f a = some b := by
  intro b hb
  have hmem : some b ∈ l.map f := by
    rw [map_eq_of_mapM h]
    exact List.mem_map_of_mem hb
  exact List.mem_map.1 hmem

theorem length_mapM {α β : Type} {f : α → Option β} {l : List α} {l' : List β} (h : l.mapM f = some l') :
    l'.length = l.length := by
  have hlen := congrArg List.length (map_eq_of_mapM h)
  rw [List.length_map, List.length_map] at hlen
  exact hlen.symm

/-- An `int` fits into `number_str`. -/
theorem length_fmtInt_of_int {a : ℤ} (h1 : -2147483648 ≤ a) (h2 : a ≤ 2147483647) :
    (fmtInt a).length < maxNumberLength := by
  have h12 : maxNumberLength = 12 := rfl
  have := length_fmtInt_le (n := a) (k := 10) (by decide) (by omega)
  omega

theorem length_fmtInt_of_atoi {w : Text} {a : ℤ} (h : atoi w = some a) : (fmtInt a).length < maxNumberLength := by
  obtain ⟨hle, rfl⟩ := atoi_eq_some.1 h
  exact length_fmtInt_of_int (by omega) (by omega)

theorem mapM_atoi {l : List Text} (h : ∀ w ∈ l, value w ≤ 2147483647) :
    l.mapM atoi = some (l.map fun w => (value w : ℤ)) := by
  induction l with
  | nil => rfl
  | cons w l ih =>
    have hw : atoi w = some (value w : ℤ) := atoi_eq_some.2 ⟨h w List.mem_cons_self, rfl⟩
    rw [List.mapM_cons, hw, ih fun w hw => h w (List.mem_cons_of_mem _ hw)]
    rfl

section
variable {f g ds rest : Text}

/-- The digits at the end of the file. -/
def lastRun (f : Text) : Text := f.rtakeWhile Char.isDigit

/-- The numbers before the digits at the end of the file. -/
def firstNumbers (f : Text) : List ℤ := numbers (f.rdropWhile Char.isDigit)

theorem lastRun_isDigit (f : Text) : ∀ c ∈ lastRun f, c.isDigit = true := fun _ => List.mem_rtakeWhile_imp

theorem runs_split (f u : Text) :
    runs (f ++ u) = runs (f.rdropWhile Char.isDigit) ++ runs (lastRun f ++ u) := by
  have := runs_rdropWhile_append f (lastRun f ++ u)
  rwa [← List.append_assoc, lastRun, List.rdropWhile_append_rtakeWhile] at this

theorem runs_eq (f : Text) : runs f = runs (f.rdropWhile Char.isDigit) ++ runs (lastRun f) := by
  simpa using runs_split f []

theorem numbers_eq (f : Text) : numbers f = firstNumbers f ++ numbers (lastRun f) := by
  simp only [numbers, firstNumbers, runs_eq f, List.map_append]

theorem runs_lastRun (hlast : lastRun f ≠ []) (hds : ∀ c ∈ ds, c.isDigit = true) :
    runs (lastRun f ++ ds) = [lastRun f ++ ds] := by
  have hdig : ∀ c ∈ lastRun f ++ ds, c.isDigit = true := by
    intro c hc
    rcases List.mem_append.1 hc with hc | hc
    · exact lastRun_isDigit f c hc
    · exact hds c hc
  rw [runs_digits hdig, if_neg fun h0 => hlast (List.append_eq_nil_iff.1 h0).1]

theorem runs_lastRun_self (hlast : lastRun f ≠ []) : runs (lastRun f) = [lastRun f] := by
  rw [runs_digits (lastRun_isDigit f), if_neg hlast]

/-- The numbers of the file with something behind it: only the last one can be another
    one, and there can be more. -/
theorem mapM_runs_append (hint : ∀ w ∈ runs f, value w ≤ 2147483647) (hrest : NoDigit rest) :
    (runs (f ++ (ds ++ rest))).mapM atoi =
      ((runs (lastRun f ++ ds) ++ runs rest).mapM atoi).map (firstNumbers f ++ ·) := by
  have hfirst : (runs (f.rdropWhile Char.isDigit)).mapM atoi = some (firstNumbers f) := by
    refine mapM_atoi fun w hw => hint w ?_
    rw [runs_eq]
    exact List.mem_append_left _ hw
  rw [runs_split, ← List.append_assoc, runs_append_of_noDigit _ hrest, List.mapM_append, hfirst]
  cases (runs (lastRun f ++ ds) ++ runs rest).mapM atoi <;> rfl

/-- The digits that follow lengthen the last number. -/
theorem mapM_last (hlast : lastRun f ≠ []) (hds : ∀ c ∈ ds, c.isDigit = true)
    (h : value (lastRun f ++ ds) ≤ 2147483647) :
    (runs (lastRun f ++ ds)).mapM atoi = some [(value (lastRun f ++ ds) : ℤ)] := by
  rw [runs_lastRun hlast hds, List.mapM_cons, List.mapM_nil, atoi_eq_some.2 ⟨h, rfl⟩]; rfl

theorem eq_of_mapM_last {arr : List ℤ} (hlast : lastRun f ≠ []) (hds : ∀ c ∈ ds, c.isDigit = true)
    (h : (runs (lastRun f ++ ds)).mapM atoi = some arr) :
    value (lastRun f ++ ds) ≤ 2147483647 ∧ arr = [(value (lastRun f ++ ds) : ℤ)] := by
  rw [runs_lastRun hlast hds, List.mapM_cons, List.mapM_nil] at h
  cases ha : atoi (lastRun f ++ ds) with
  | none => rw [ha] at h; cases h
  | some a =>
    rw [ha] at h
    obtain ⟨hle, rfl⟩ := atoi_eq_some.1 ha
    exact ⟨hle, (Option.some.inj h).symm⟩

theorem numbers_lastRun (hlast : lastRun f ≠ []) : numbers f = firstNumbers f ++ [(value (lastRun f) : ℤ)] := by
  rw [numbers_eq, numbers, runs_lastRun_self hlast]; rfl

end

/-! ## When the report is written -/

/-- What stands behind the file in `buf`, up to the first NUL. -/
def Env.leftover (e : Env) : Text := cstr (e.buf.toList.drop e.file.length)

/-- The digits with which it begins. -/
def Env.digits (e : Env) : Text := e.leftover.takeWhile Char.isDigit

/-- The size of the block for the answer. -/
def Env.room (e : Env) : ℕ := e.usable (11 + 14 * (numbers e.file).length)

/-- The digits behind the file do not show: there are none, or they are zeros that go
    on a number that is zero, or the report has just the 5000 bytes that the third
    process reads, and it is its last number that they go on. -/
def Env.Hidden (e : Env) : Prop :=
  e.digits = [] ∨
    (lastRun e.file ≠ [] ∧ value (lastRun e.file ++ e.digits) = 0) ∨
      (value (lastRun e.file) ≠ 0 ∧ value (lastRun e.file ++ e.digits) ≤ 2147483647 ∧
        (report e.file).length = bufSize ∧ bufSize + e.digits.length < e.room)

/-- The file is not empty, what the local buffer holds behind it ends with a NUL and
    does not show, and the report fits into the block and into the last buffer. -/
structure Env.Clean (e : Env) : Prop where
  file : e.file ≠ []
  ended : nul ∈ e.buf.toList.drop e.file.length
  hidden : e.Hidden
  rest : ∀ c ∈ e.leftover.dropWhile Char.isDigit, c.isDigit = false
  room : (report e.file).length < e.room
  short : (report e.file).length ≤ bufSize

variable {e : Env}

theorem digits_isDigit (e : Env) : ∀ c ∈ e.digits, c.isDigit = true := fun _ => List.mem_takeWhile_imp

/-- The solution of the second process. -/
theorem solution_eq (hlen : e.file.length ≤ bufSize) (hnul : nul ∉ e.file)
    (hint : ∀ w ∈ runs e.file, value w ≤ 2147483647) :
    e.solution = if nul ∈ e.buf.toList.drop e.file.length then
      (((runs (lastRun e.file ++ e.digits) ++ runs (e.leftover.dropWhile Char.isDigit)).mapM atoi).map
        (firstNumbers e.file ++ ·)).bind (makeStringFromArray e.usable) else none := by
  have hdata : e.data = e.file := List.take_of_length_le hlen
  have hcstr : cstr (e.file ++ e.buf.toList.drop e.file.length) =
      e.file ++ (e.digits ++ e.leftover.dropWhile Char.isDigit) := by
    rw [Env.digits, List.takeWhile_append_dropWhile, Env.leftover, cstr, cstr, List.takeWhile_append_of_pos]
    intro c hc
    simpa using fun h0 : c = nul => hnul (h0 ▸ hc)
  rw [Env.solution, hdata, findAllNumbers_eq, overwrite, hcstr, mapM_runs_append hint (noDigit_dropWhile _)]
  simp only [List.mem_append, hnul, false_or]
  split_ifs <;> rfl

/-- The solution, when the numbers found are `arr`. -/
theorem solution_of_mapM {arr : List ℤ} (hlen : e.file.length ≤ bufSize) (hnul : nul ∉ e.file)
    (hint : ∀ w ∈ runs e.file, value w ≤ 2147483647) (hend : nul ∈ e.buf.toList.drop e.file.length)
    (harr : (runs (lastRun e.file ++ e.digits) ++ runs (e.leftover.dropWhile Char.isDigit)).mapM atoi = some arr) :
    e.solution =
      if (answer (firstNumbers e.file ++ arr)).length < e.usable (11 + 14 * (firstNumbers e.file ++ arr).length) then
        some (answer (firstNumbers e.file ++ arr)) else none := by
  rw [solution_eq hlen hnul hint, if_pos hend, harr, Option.map_some, Option.bind_some]
  refine makeStringFromArray_eq _ fun a ha => ?_
  rcases List.mem_append.1 ha with ha | ha
  · obtain ⟨w, hw, rfl⟩ := List.mem_map.1 ha
    refine length_fmtInt_of_atoi (atoi_eq_some.2 ⟨hint w ?_, rfl⟩)
    rw [runs_eq]
    exact List.mem_append_left _ hw
  · obtain ⟨w, -, hw⟩ := mem_mapM harr a ha
    exact length_fmtInt_of_atoi hw

/-- Digits that go on a number other than zero go on the report. -/
theorem answer_lengthen {w ds : Text} (hds : ∀ c ∈ ds, c.isDigit = true) (hw : value w ≠ 0) (arr : List ℤ) :
    answer (arr ++ [(value (w ++ ds) : ℤ)]) = answer (arr ++ [(value w : ℤ)]) ++ ds := by
  rw [answer_concat, answer_concat, fmtInt_natCast, fmtInt_natCast, toDigits_value_append hds hw,
    List.append_assoc]

/-- A number that goes on as zero does is zero. -/
theorem eq_zero_of_prefix {n : ℕ} {arr : List ℤ}
    (h : answer (arr ++ [((0 : ℕ) : ℤ)]) <+: answer (arr ++ [(n : ℤ)])) : n = 0 := by
  rw [answer_concat, answer_concat, List.prefix_append_right_inj, fmtInt_natCast, fmtInt_natCast] at h
  by_contra hn
  obtain ⟨u, hu⟩ := h
  refine head_toDigits_ne hn ?_
  rw [← hu]; rfl

theorem value_append_eq_zero {w ds : Text} (h : value (w ++ ds) = 0) : value w = 0 := by
  rw [value_append] at h
  have hpos : 0 < 10 ^ ds.length := Nat.pow_pos (by decide)
  exact (Nat.mul_eq_zero.1 (Nat.eq_zero_of_add_eq_zero_right h)).resolve_left (by omega)

/-- When nothing that stands behind the file shows, the solution begins with the report. -/
theorem Env.Clean.solution (h : e.Clean) (hlen : e.file.length ≤ bufSize) (hnul : nul ∉ e.file)
    (hint : ∀ w ∈ runs e.file, value w ≤ 2147483647) :
    ∃ u, e.solution = some (report e.file ++ u) ∧ (u = [] ∨ (report e.file).length = bufSize) := by
  have hdigits := digits_isDigit e
  have hsol := fun arr => @solution_of_mapM e arr hlen hnul hint h.ended
  simp only [runs_eq_nil_iff.2 h.rest, List.append_nil] at hsol
  rcases h.hidden with hnil | ⟨hlast, hzero⟩ | ⟨hval, hle, hfull, hroom⟩
  · have harr : (runs (lastRun e.file ++ e.digits)).mapM atoi = some (numbers (lastRun e.file)) := by
      rw [hnil, List.append_nil]
      refine mapM_atoi fun w hw => hint w ?_
      rw [runs_eq]
      exact List.mem_append_right _ hw
    refine ⟨[], ?_, .inl rfl⟩
    rw [hsol _ harr, ← numbers_eq, List.append_nil]
    exact if_pos h.room
  · have harr := mapM_last hlast hdigits (by omega)
    refine ⟨[], ?_, .inl rfl⟩
    rw [hsol _ harr, hzero, ← value_append_eq_zero hzero, ← numbers_lastRun hlast, List.append_nil]
    exact if_pos h.room
  · have hlast : lastRun e.file ≠ [] := by
      intro h0
      rw [h0] at hval
      exact hval rfl
    have hans : answer (firstNumbers e.file ++ [(value (lastRun e.file ++ e.digits) : ℤ)]) =
        report e.file ++ e.digits := by
      rw [answer_lengthen hdigits hval, ← numbers_lastRun hlast, report]
    have hcount : (firstNumbers e.file ++ [(value (lastRun e.file ++ e.digits) : ℤ)]).length =
        (numbers e.file).length := by
      rw [numbers_lastRun hlast, List.length_append, List.length_append]; rfl
    refine ⟨e.digits, ?_, .inr hfull⟩
    rw [hsol _ (mapM_last hlast hdigits hle), hans, hcount, if_pos]
    rw [List.length_append, hfull]
    exact hroom

/-- When the file holds the report, nothing that stands behind it in `buf` shows. -/
theorem Env.Clean.of_result (hlen : e.file.length ≤ bufSize) (hnul : nul ∉ e.file)
    (hint : ∀ w ∈ runs e.file, value w ≤ 2147483647) (hne : e.file ≠ []) (h : e.result = report e.file) :
    e.Clean := by
  cases hs : e.solution with
  | none =>
    rw [Env.result, hs] at h
    exact absurd h.symm (answer_ne_nil _)
  | some sol =>
    have htake : sol.take bufSize = report e.file := by rwa [Env.result, hs] at h
    have hend : nul ∈ e.buf.toList.drop e.file.length := by
      by_contra hend
      rw [solution_eq hlen hnul hint, if_neg hend] at hs
      cases hs
    cases harr : (runs (lastRun e.file ++ e.digits) ++
        runs (e.leftover.dropWhile Char.isDigit)).mapM atoi with
    | none =>
      rw [solution_eq hlen hnul hint, harr] at hs
      split_ifs at hs
      cases hs
    | some arr =>
      rw [solution_of_mapM hlen hnul hint hend harr] at hs
      split_ifs at hs with hfits
      obtain rfl := Option.some.inj hs
      have hpre : report e.file <+: answer (firstNumbers e.file ++ arr) := htake ▸ List.take_prefix _ _
      have hcount := length_eq_of_prefix hpre
      have hshort : (report e.file).length ≤ bufSize := htake ▸ List.length_take_le _ _
      have hroom : (answer (firstNumbers e.file ++ arr)).length < e.room := by rwa [← hcount] at hfits
      have hroom' : (report e.file).length < e.room := Nat.lt_of_le_of_lt hpre.length_le hroom
      -- there is no number more than in the file
      have hruns : (runs (lastRun e.file ++ e.digits)).length +
          (runs (e.leftover.dropWhile Char.isDigit)).length = (runs (lastRun e.file)).length := by
        have := length_mapM harr
        rw [numbers_eq, List.length_append, List.length_append, numbers, List.length_map] at hcount
        rw [List.length_append] at this
        omega
      have hdigits := digits_isDigit e
      have hrest : runs (e.leftover.dropWhile Char.isDigit) = [] := by
        by_cases hlast : lastRun e.file = []
        · rw [hlast, List.nil_append, runs_nil, List.length_nil] at hruns
          exact List.length_eq_zero_iff.1 (by omega)
        · rw [runs_lastRun hlast hdigits, runs_lastRun_self hlast, List.length_singleton,
            List.length_singleton] at hruns
          exact List.length_eq_zero_iff.1 (by omega)
      refine ⟨hne, hend, ?_, ?_, hroom', hshort⟩
      · by_cases hnil : e.digits = []
        · exact .inl hnil
        have hlast : lastRun e.file ≠ [] := by
          -- the digits would be a number more
          intro hlast
          rw [hlast, List.nil_append, runs_digits hdigits, if_neg hnil, runs_nil] at hruns
          simp at hruns
        rw [hrest, List.append_nil] at harr
        obtain ⟨hle, rfl⟩ := eq_of_mapM_last hlast hdigits harr
        rw [report, numbers_lastRun hlast] at hpre htake
        by_cases hval : value (lastRun e.file) = 0
        · rw [hval] at hpre
          exact .inr (.inl ⟨hlast, eq_zero_of_prefix hpre⟩)
        · rw [answer_lengthen hdigits hval, ← numbers_lastRun hlast, ← report] at htake hroom
          have hlen := congrArg List.length htake
          have hpos := List.length_pos_iff.2 hnil
          rw [List.length_take, List.length_append] at hlen
          rw [List.length_append] at hroom
          have hfull : (report e.file).length = bufSize := by omega
          exact .inr (.inr ⟨hval, hle, hfull, hfull ▸ hroom⟩)
      · exact runs_eq_nil_iff.1 hrest

theorem Env.Clean.result (h : e.Clean) (hlen : e.file.length ≤ bufSize) (hnul : nul ∉ e.file)
    (hint : ∀ w ∈ runs e.file, value w ≤ 2147483647) : e.result = report e.file := by
  obtain ⟨u, hsol, hu⟩ := h.solution hlen hnul hint
  rw [Env.result, hsol, Option.getD_some]
  rcases hu with rfl | hfull
  · rw [List.append_nil, List.take_of_length_le h.short]
  · rw [← hfull, List.take_left]

/-- The runs end, and leave the report. -/
def Reports (e : Env) : Prop :=
  (∃ s, (system e).Reachable s ∧ Final e s) ∧
    ∀ s, (system e).Reachable s → Final e s → s.output = some (report e.file)

theorem Reports.result (h : Reports e) (hlen : e.file.length ≤ bufSize) :
    e.file ≠ [] ∧ e.result = report e.file := by
  obtain ⟨⟨s, hs, hf⟩, hall⟩ := h
  have hout := hall s hs hf
  have hdata : e.data = e.file := List.take_of_length_le hlen
  rw [output_of_final hs hf, hdata] at hout
  split_ifs at hout with hne
  exact ⟨hne, Option.some.inj hout⟩

/-- **The output file holds the report** iff the input is not empty, the report fits
    into the block and the last buffer, and nothing shows of what the local buffer held
    before.  Nobody puts a NUL behind the bytes that are read. -/
theorem reports_iff (e : Env) (hlen : e.file.length ≤ bufSize) (hnul : nul ∉ e.file)
    (hint : ∀ w ∈ runs e.file, value w ≤ 2147483647) : Reports e ↔ e.Clean := by
  constructor
  · intro h
    obtain ⟨hne, hres⟩ := h.result hlen
    exact Env.Clean.of_result hlen hnul hint hne hres
  · intro h
    refine ⟨exists_final (.init rfl), fun s hs hf => ?_⟩
    have hdata : e.data = e.file := List.take_of_length_le hlen
    rw [output_of_final hs hf, hdata, if_neg h.file, h.result hlen hnul hint]

/-- The file `5`, and a buffer that holds the text `t` and then NULs; the blocks are
    those of a 64 bit `malloc`. -/
def five (t : Vector Char 3) : Env where
  file := ['5']
  buf := t ++ Vector.replicate 4997 nul
  writebuf := Vector.replicate bufSize nul
  usable n := max 24 ((n + 23) / 16 * 16 - 8)

theorem five_leftover : (five #v['x', '7', nul]).leftover = ['7'] := by
  have : (five #v['x', '7', nul]).buf.toList.drop 1 = ['7'] ++ nul :: List.replicate 4997 nul := by
    simp only [five, Vector.toList_append, Vector.toList_replicate]; rfl
  rw [Env.leftover, show (five #v['x', '7', nul]).file.length = 1 from rfl, this,
    cstr_append_cons _ _ (by decide)]

theorem reports_iff_five : Reports (five #v['x', nul, nul]) ↔ (five #v['x', nul, nul]).Clean :=
  reports_iff _ (by decide) (by decide) (by decide)

/-- With a `7` behind the file the answer is `there are 1 numbers: 57`. -/
theorem not_reports : ¬ ∀ e : Env, e.file.length ≤ bufSize → nul ∉ e.file →
    (∀ w ∈ runs e.file, value w ≤ 2147483647) → Reports e := by
  intro h
  have hrep := h (five #v['x', '7', nul]) (by decide) (by decide) (by decide)
  obtain ⟨hne, hres⟩ := hrep.result (by decide)
  have hclean := Env.Clean.of_result (by decide) (by decide) (by decide) hne hres
  have hdigits : (five #v['x', '7', nul]).digits = ['7'] := by
    rw [Env.digits, five_leftover]; rfl
  rcases hclean.hidden with hnil | ⟨-, hzero⟩ | ⟨-, -, hfull, -⟩
  · rw [hdigits] at hnil
    cases hnil
  · rw [hdigits] at hzero
    exact absurd hzero (by decide)
  · exact absurd hfull (by decide)

end Numbers
