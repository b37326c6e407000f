/-
  Input streams of C++, as far as `>>` into an `int` goes: what is left to read, `eofbit` and
  `failbit`.
-/
import OsCourse.Lib.Text

/-- A stream that reads from a file. -/
structure Istream where
  rest : Text
  eofbit : Bool
  failbit : Bool
  deriving DecidableEq

namespace Istream

/-- A file that has been opened. -/
def ofText (t : Text) : Istream := { rest := t, eofbit := false, failbit := false }

/-- `good()` -/
def good (s : Istream) : Bool := !s.eofbit && !s.failbit

/-- The values of type `int`. -/
def intMin : ℤ := -2147483648
def intMax : ℤ := 2147483647

/-- What is left when a sign has been read. -/
def dropSign : Text → Text
  | '-' :: t => t
  | '+' :: t => t
  | t => t

/-- `>>` into an `int` with the value `old`: its new value, and the stream.  Nothing is stored
    when the stream is not good or has nothing but white space left. -/
def readInt (s : Istream) (old : ℤ) : ℤ × Istream :=
  if s.good then
    match s.rest.dropWhile Text.isSpace with
    | [] => (old, { rest := [], eofbit := true, failbit := true })
    | c :: t =>
      match Text.scanSigned (c :: t) with
      | none =>
        (0, { rest := dropSign (c :: t), eofbit := (dropSign (c :: t)).isEmpty, failbit := true })
      | some (n, rest) =>
        if n < intMin then (intMin, { rest := rest, eofbit := rest.isEmpty, failbit := true })
        else if intMax < n then (intMax, { rest := rest, eofbit := rest.isEmpty, failbit := true })
        else (n, { rest := rest, eofbit := rest.isEmpty, failbit := false })
  else (old, { s with failbit := true })

variable {s : Istream} {old n : ℤ}

theorem good_ofText (t : Text) : (ofText t).good = true := rfl

theorem readInt_of_not_good (h : s.good = false) (old : ℤ) :
    s.readInt old = (old, { s with failbit := true }) := by
  rw [readInt, if_neg (by simp [h])]

/-- At the end of the file the variable keeps its value. -/
theorem readInt_blank {t : Text} (ht : Text.Blank t) (old : ℤ) :
    (ofText t).readInt old = (old, { rest := [], eofbit := true, failbit := true }) := by
  have hskip : t.dropWhile Text.isSpace = [] := List.dropWhile_eq_nil_iff.2 ht
  rw [readInt, if_pos (good_ofText _)]
  simp only [ofText, hskip]

/-- A number that `%d` has written. -/
theorem readInt_fmtInt {ws rest : Text} (hws : Text.Blank ws) (hmin : intMin ≤ n) (hmax : n ≤ intMax)
    (hrest : Text.NoDigit rest) (old : ℤ) :
    (ofText (ws ++ (Text.fmtInt n ++ rest))).readInt old =
      (n, { rest := rest, eofbit := rest.isEmpty, failbit := false }) := by
  have hscan := Text.scanInt_fmtInt n hrest
  obtain ⟨c, t, hc, hd⟩ := Text.fmtInt_cons n
  have hspace : Text.isSpace c = false := by
    rcases hd with rfl | hd
    · decide
    · exact Text.isSpace_of_isDigit hd
  have hskip : (ws ++ (Text.fmtInt n ++ rest)).dropWhile Text.isSpace = Text.fmtInt n ++ rest :=
    (Text.takeWhile_append_stop hws (by simpa [hc] using hspace)).2
  have hsigned : Text.scanSigned (Text.fmtInt n ++ rest) = some (n, rest) := by
    rw [Text.scanInt, hc, List.cons_append, List.dropWhile_cons_of_neg (by simp [hspace])] at hscan
    rwa [hc, List.cons_append]
  rw [readInt, if_pos (good_ofText _)]
  simp only [ofText, hskip]
  rw [hc, List.cons_append] at hsigned ⊢
  simp only [hsigned]
  rw [if_neg (Int.not_lt.2 hmin), if_neg (Int.not_lt.2 hmax)]

/-- A stream that is good afterwards was good before, and has less left. -/
theorem readInt_good (h : (s.readInt old).2.good = true) :
    s.good = true ∧ (s.readInt old).2.rest.length < s.rest.length := by
  cases hg : s.good with
  | false =>
    rw [readInt_of_not_good hg] at h
    simp [good] at h
  | true =>
    refine ⟨rfl, ?_⟩
    have hskip := (List.dropWhile_suffix Text.isSpace (l := s.rest)).length_le
    rw [readInt, if_pos hg] at h ⊢
    rcases hd : s.rest.dropWhile Text.isSpace with _ | ⟨c, t⟩
    · simp [hd, good] at h
    rcases hs : Text.scanSigned (c :: t) with _ | ⟨n, rest⟩
    · simp [hd, hs, good] at h
    obtain ⟨num, hnum, ht, -⟩ := Text.scanSigned_iff.1 ⟨n, hs⟩
    have hlt : rest.length < (c :: t).length := by
      obtain ⟨d, u, rfl, -⟩ := hnum.head
      rw [ht, List.cons_append, List.length_cons, List.length_append]
      omega
    rw [hd] at hskip
    simp only [hd, hs] at h ⊢
    split_ifs at h ⊢
    all_goals exact Nat.lt_of_lt_of_le hlt hskip

end Istream
