/-
  The number extractor (idz os 1/4): `find_all_numbers` and
  `make_string_from_array`.  An access outside of an array, and a number that is no
  `int`, end in `none`: nothing is promised after it.
-/
import OsCourse.Lib.Runs

namespace Numbers

open Text

/-- `atoi` of a string of digits. -/
def atoi (w : Text) : Option ℤ := if value w ≤ 2147483647 then some (value w) else none

/-! ## `find_all_numbers` -/

/-- The variables of `find_all_numbers`: the array of numbers with its capacity, and
    the digits read last with theirs (`curstr` ends with a NUL of its own). -/
structure Scan where
  ans : List ℤ
  cap : ℕ
  curstr : Text
  strcap : ℕ

/-- At a digit: append it to `curstr`, which is enlarged first if it is full. -/
def addDigit (s : Scan) (c : Char) : Option Scan :=
  let strcap := if s.curstr.length + 1 ≥ s.strcap then 2 * s.strcap else s.strcap
  if s.curstr.length + 1 < strcap then some { s with curstr := s.curstr ++ [c], strcap := strcap }
  else none

section
variable (atoi : Text → Option ℤ)

/-- At another character, and at the end: if digits have been read, append their value
    to `ans`, which is enlarged first if it is full. -/
def endNumberWith (s : Scan) : Option Scan :=
  if s.curstr.length > 0 then
    (atoi s.curstr).bind fun a =>
      let cap := if s.ans.length ≥ s.cap then 2 * s.cap else s.cap
      if s.ans.length < cap then some { s with ans := s.ans ++ [a], cap := cap, curstr := [] }
      else none
  else some s

/-- The body of the loop. -/
def scanCharWith (s : Scan) (c : Char) : Option Scan :=
  if c.isDigit then addDigit s c else endNumberWith atoi s

/-- The loop over `string`, an array with the bytes given, up to its first NUL. -/
def scanLoopWith : Scan → Text → Option Scan
  | _, [] => none
  | s, c :: string =>
    if c = nul then some s else (scanCharWith atoi s c).bind fun s => scanLoopWith s string

/-- The function with the given `atoi`, whose `none` is a number of which nothing is
    promised. -/
def findAllNumbersWith (string : Text) : Option (List ℤ) :=
  ((scanLoopWith atoi { ans := [], cap := 10, curstr := [], strcap := 10 } string).bind
    (endNumberWith atoi)).map Scan.ans

end

def findAllNumbers (string : Text) : Option (List ℤ) := findAllNumbersWith atoi string

/-! ## `make_string_from_array` -/

/-- `MAX_NUMBER_LENGTH` -/
abbrev maxNumberLength : ℕ := 12

/-- `sprintf` and `strcat`: append to the string in a buffer with room for `room`
    bytes, the NUL included. -/
def put (room : ℕ) (buffer t : Text) : Option Text :=
  if (buffer ++ t).length + 1 ≤ room then some (buffer ++ t) else none

/-- The loop over the array, from index `i` on. -/
def putNumbers (room size : ℕ) : ℕ → List ℤ → Text → Option Text
  | _, [], buffer => some buffer
  | i, a :: arr, buffer =>
    -- `number_str[MAX_NUMBER_LENGTH]`
    if (fmtInt a).length + 1 ≤ maxNumberLength then
      (put room buffer (fmtInt a)).bind fun buffer =>
        (if i < size - 1 then put room buffer [',', ' '] else some buffer).bind fun buffer =>
          putNumbers room size (i + 1) arr buffer
    else none

/-- `there are %zu numbers: ` -/
def header (size : ℕ) : Text := "there are ".toList ++ Nat.toDigits 10 size ++ ' ' :: "numbers: ".toList

/-- `usable n` is the number of bytes that can be written to the block that
    `malloc(n)` returns. -/
def makeStringFromArray (usable : ℕ → ℕ) (arr : List ℤ) : Option Text :=
  let size := arr.length
  let room := usable (10 + size * maxNumberLength + size * 2 + 1)
  (put room [] (header size)).bind fun buffer => putNumbers room size 0 arr buffer

/-! ## What they compute -/

/-- The capacities suffice for what is stored. -/
structure Scan.Ok (s : Scan) : Prop where
  ans : s.ans.length ≤ s.cap
  cap : 0 < s.cap
  curstr : s.curstr.length < s.strcap
  digits : ∀ c ∈ s.curstr, c.isDigit = true

theorem Scan.Ok.addDigit {s : Scan} (h : s.Ok) {c : Char} (hc : c.isDigit = true) :
    ∃ strcap, Numbers.addDigit s c = some { s with curstr := s.curstr ++ [c], strcap := strcap } ∧
      Scan.Ok { s with curstr := s.curstr ++ [c], strcap := strcap } := by
  have hlt := h.curstr
  refine ⟨if s.curstr.length + 1 ≥ s.strcap then 2 * s.strcap else s.strcap, ?_, h.ans, h.cap, ?_, ?_⟩
  · rw [Numbers.addDigit]
    exact if_pos (by split_ifs <;> omega)
  · simp only [List.length_append, List.length_singleton]
    split_ifs <;> omega
  · intro d hd
    rcases List.mem_append.1 hd with hd | hd
    · exact h.digits d hd
    · rw [List.mem_singleton.1 hd]; exact hc

/-- The number `a` is stored. -/
def Scan.store (s : Scan) (a : ℤ) : Scan :=
  { s with ans := s.ans ++ [a], cap := if s.ans.length ≥ s.cap then 2 * s.cap else s.cap, curstr := [] }

theorem Scan.Ok.store {s : Scan} (h : s.Ok) (a : ℤ) : (s.store a).Ok := by
  have h1 := h.ans
  have h2 := h.cap
  have h3 := h.curstr
  refine ⟨?_, ?_, ?_, by simp [Scan.store]⟩
  · simp only [Scan.store, List.length_append, List.length_singleton]
    split_ifs <;> omega
  · simp only [Scan.store]
    split_ifs <;> omega
  · simp only [Scan.store, List.length_nil]
    omega

section
variable (f : Text → Option ℤ)

theorem Scan.Ok.endNumber {s : Scan} (h : s.Ok) :
    endNumberWith f s = if s.curstr = [] then some s else (f s.curstr).map s.store := by
  have h1 := h.ans
  have h2 := h.cap
  rw [endNumberWith]
  by_cases hnil : s.curstr = []
  · rw [if_pos hnil, if_neg (by simp [hnil])]
  · have hlt : s.ans.length < (if s.ans.length ≥ s.cap then 2 * s.cap else s.cap) := by
      split_ifs <;> omega
    rw [if_neg hnil, if_pos (List.length_pos_iff.2 hnil), Option.map_eq_bind]
    congr 1
    funext a
    exact if_pos hlt

/-- **The loop finds the runs of digits** of the string, if the array holds a NUL. -/
theorem scanLoop_eq {s : Scan} (h : s.Ok) (string : Text) :
    ((scanLoopWith f s string).bind (endNumberWith f)).map Scan.ans =
      if nul ∈ string then ((runs (s.curstr ++ cstr string)).mapM f).map (s.ans ++ ·) else none := by
  induction string generalizing s with
  | nil => rfl
  | cons c string ih =>
    by_cases hc : c = nul
    · -- the end of the string
      subst hc
      have hstr : cstr (nul :: string) = [] := by simp [cstr]
      rw [hstr, List.append_nil, if_pos List.mem_cons_self, scanLoopWith, if_pos rfl, Option.bind_some,
        h.endNumber, runs_digits h.digits]
      split_ifs
      · simp
      · cases ha : f s.curstr <;> simp [Scan.store, ha]
    · have hstr : cstr (c :: string) = c :: cstr string := by simp [cstr, hc]
      have hmem : nul ∈ c :: string ↔ nul ∈ string := by simp [Ne.symm hc]
      rw [hstr, scanLoopWith, if_neg hc]
      simp only [hmem]
      cases hd : c.isDigit with
      | true =>
        obtain ⟨strcap, heq, hok⟩ := h.addDigit hd
        rw [scanCharWith, if_pos hd, heq, Option.bind_some, ih hok]
        simp only [List.append_assoc, List.singleton_append]
      | false =>
        rw [scanCharWith, if_neg (by simp [hd]), h.endNumber, runs_append_cons _ _ hd, runs_digits h.digits]
        by_cases hnil : s.curstr = []
        · rw [if_pos hnil, if_pos hnil, Option.bind_some, ih h, hnil]; rfl
        · rw [if_neg hnil, if_neg hnil, List.mapM_append]
          cases ha : f s.curstr with
          | none => simp [ha]
          | some a =>
            rw [Option.map_some, Option.bind_some, ih (h.store a)]
            split_ifs
            · simp only [Scan.store, List.nil_append, List.mapM_cons, ha, List.mapM_nil]
              cases (runs (cstr string)).mapM f <;> simp
            · rfl

theorem findAllNumbersWith_eq (string : Text) :
    findAllNumbersWith f string = if nul ∈ string then (runs (cstr string)).mapM f else none := by
  have h := scanLoop_eq f (s := { ans := [], cap := 10, curstr := [], strcap := 10 })
    ⟨by simp, by simp, by simp, by simp⟩ string
  rw [findAllNumbersWith, h]
  simp

end

theorem findAllNumbers_eq (string : Text) :
    findAllNumbers string = if nul ∈ string then (runs (cstr string)).mapM atoi else none := by
  rw [findAllNumbers, findAllNumbersWith_eq]

/-! ## The answer -/

/-- `there are N numbers: `, and the numbers separated by `, `. -/
def answer (arr : List ℤ) : Text := header arr.length ++ List.intercalate [',', ' '] (arr.map fmtInt)

theorem put_eq_some {room : ℕ} {buffer t : Text} (h : (buffer ++ t).length < room) :
    put room buffer t = some (buffer ++ t) := if_pos h

theorem put_eq_none {room : ℕ} {buffer t : Text} (h : ¬ (buffer ++ t).length < room) :
    put room buffer t = none := if_neg h

/-- The loop appends the numbers with their separators, if the whole fits. -/
theorem putNumbers_eq {room size : ℕ} {arr : List ℤ} (harr : ∀ a ∈ arr, (fmtInt a).length < maxNumberLength)
    {i : ℕ} (hi : i + arr.length = size) {buffer : Text} (hbuf : buffer.length < room) :
    putNumbers room size i arr buffer =
      if (buffer ++ List.intercalate [',', ' '] (arr.map fmtInt)).length < room then
        some (buffer ++ List.intercalate [',', ' '] (arr.map fmtInt)) else none := by
  induction arr generalizing i buffer with
  | nil => simp [putNumbers, List.intercalate, hbuf]
  | cons a arr ih =>
    have ha : (fmtInt a).length + 1 ≤ maxNumberLength := harr a List.mem_cons_self
    rw [putNumbers, if_pos ha]
    cases arr with
    | nil =>
      have hlast : ¬ i < size - 1 := by simp at hi; omega
      simp only [hlast, if_false, putNumbers, List.map_cons, List.map_nil, List.intercalate, List.intersperse,
        List.flatten_cons, List.flatten_nil, List.append_nil, Option.bind_some, put]
      split_ifs <;> first | rfl | omega
    | cons b arr =>
      have hnext : i < size - 1 := by simp at hi; omega
      have hlen : (b :: arr).length + (i + 1) = size := by simp at hi ⊢; omega
      simp only [hnext, if_true, List.map_cons, List.intercalate_cons_cons]
      rw [← List.map_cons, ← List.append_assoc, ← List.append_assoc]
      by_cases h1 : (buffer ++ fmtInt a).length < room
      · rw [put_eq_some h1, Option.bind_some]
        by_cases h2 : (buffer ++ fmtInt a ++ [',', ' ']).length < room
        · rw [put_eq_some h2, Option.bind_some,
            ih (fun x hx => harr x (List.mem_cons_of_mem _ hx)) (by omega) h2]
        · rw [put_eq_none h2, Option.bind_none, if_neg]
          simp only [List.length_append] at h2 ⊢; omega
      · rw [put_eq_none h1, Option.bind_none, if_neg]
        simp only [List.length_append] at h1 ⊢; omega

/-- **The string holds the answer**, if the answer fits into the block. -/
theorem makeStringFromArray_eq (usable : ℕ → ℕ) {arr : List ℤ}
    (harr : ∀ a ∈ arr, (fmtInt a).length < maxNumberLength) :
    makeStringFromArray usable arr =
      if (answer arr).length < usable (11 + 14 * arr.length) then some (answer arr) else none := by
  have hsize : 10 + arr.length * maxNumberLength + arr.length * 2 + 1 = 11 + 14 * arr.length := by
    simp only [maxNumberLength]; omega
  simp only [makeStringFromArray, hsize]
  by_cases h : ([] ++ header arr.length).length < usable (11 + 14 * arr.length)
  · rw [put_eq_some h, Option.bind_some, putNumbers_eq harr (Nat.zero_add _) h]
    rfl
  · rw [put_eq_none h, Option.bind_none, if_neg]
    simp only [List.nil_append, answer, List.length_append] at h ⊢; omega

end Numbers
