/-
  The status line on its way from the server to a monitor: what the monitor reads when several
  lines arrive in one `recv`.
-/
import OsCourse.Gallery.Handler

namespace Gallery

/-! ## The monitor's side -/

/-- The first `n` of `"%d %d %d %d %d %d"` of `sscanf`; `none` if it returns less than `n`. -/
def scanNumbers : ℕ → Text → Except Fault (Option (List ℤ))
  | 0, _ => .ok (some [])
  | n + 1, t =>
    match Text.scanInt t with
    | none => .ok none
    | some (x, t) => (storeInt x).bind fun x => (scanNumbers n t).map (Option.map (x :: ·))

/-- What a `recv` of the monitor takes out of the stream. -/
def monitorRecv (stream : Text) : Text := stream.take (bufferSize - 1)

/-- The numbers that the monitor shows: `response` is zeroed before the `recv`. -/
def monitorNumbers (stream : Text) : Except Fault (Option (List ℤ)) :=
  scanNumbers 6 (Text.cstr (monitorRecv stream))

/-! ## The server's side -/

namespace Server

/-- The numbers of a status line. -/
def numbers (s : Server) : List ℤ := s.currentVisitors :: (List.finRange 5).map s.paintingCounts

/-- The numbers of a status line are values of type `int`. -/
def Ints (s : Server) : Prop := ∀ n ∈ s.numbers, IsInt n

instance (s : Server) : Decidable s.Ints := inferInstanceAs (Decidable (∀ n ∈ s.numbers, IsInt n))

/-- The last number of a status line. -/
def last (s : Server) : ℤ := s.paintingCounts (Fin.last 4)

/-- The numbers before it. -/
def leading (s : Server) : List ℤ :=
  s.currentVisitors :: (List.finRange 4).map fun p => s.paintingCounts p.castSucc

theorem numbers_eq (s : Server) : s.numbers = s.leading ++ [s.last] := rfl

end Server

/-- The line that `broadcast_status` sends. -/
def Version.statusLine (w : Version) (s : Server) : Text := statusText s ++ w.statusEnd

/-- The monitor reads the numbers of the first line. -/
def Version.ReadsFirst (w : Version) (s : Server) (ss : List Server) : Prop :=
  monitorNumbers ((s :: ss).flatMap w.statusLine) = .ok (some s.numbers)

variable {w : Version} {s t : Server} {ss : List Server}

/-! ## Numbers with a blank behind them -/

/-- A number, and the blank between it and the next one. -/
def spaced (x : ℤ) : Text := Text.fmtInt x ++ [' ']

theorem statusText_eq (s : Server) :
    statusText s = s.leading.flatMap spaced ++ Text.fmtInt s.last := by
  have hlast : s.last = s.paintingCounts 4 := rfl
  simp [statusText, Server.leading, hlast, spaced, List.intercalate, List.finRange_succ, List.intersperse]

theorem scanNumbers_blank (n : ℕ) (t : Text) : scanNumbers (n + 1) (' ' :: t) = scanNumbers (n + 1) t := by
  rw [scanNumbers, scanNumbers, Text.scanInt_cons_space (by decide)]

theorem scanNumbers_cons {n : ℕ} {x : ℤ} {t u : Text} (h : Text.scanInt t = some (x, u)) (hx : IsInt x) :
    scanNumbers (n + 1) t = (scanNumbers n u).map (Option.map (x :: ·)) := by
  rw [scanNumbers, h]
  simp only [storeInt_of hx]
  rfl

/-- The numbers with a blank behind them are read as they were written. -/
theorem scanNumbers_spaced {xs : List ℤ} (hxs : ∀ x ∈ xs, IsInt x) (n : ℕ) (t : Text) :
    scanNumbers (xs.length + (n + 1)) (xs.flatMap spaced ++ t) =
      (scanNumbers (n + 1) t).map (Option.map (xs ++ ·)) := by
  induction xs with
  | nil =>
    rw [List.length_nil, Nat.zero_add]
    rcases hrest : scanNumbers (n + 1) t with f | (_ | r)
    all_goals simp [hrest, Except.map]
  | cons x xs ih =>
    have hscan : Text.scanInt (Text.fmtInt x ++ (' ' :: (xs.flatMap spaced ++ t))) =
        some (x, ' ' :: (xs.flatMap spaced ++ t)) := Text.scanInt_fmtInt x (by simp [Text.NoDigit])
    have hlen : (x :: xs).length + (n + 1) = (xs.length + n + 1) + 1 := by
      rw [List.length_cons]
      omega
    have htext : (x :: xs).flatMap spaced ++ t = Text.fmtInt x ++ (' ' :: (xs.flatMap spaced ++ t)) := by
      simp [spaced]
    rw [htext, hlen, scanNumbers_cons hscan (hxs x List.mem_cons_self), scanNumbers_blank,
      Nat.add_assoc, ih fun y hy => hxs y (List.mem_cons_of_mem x hy)]
    rcases scanNumbers (n + 1) t with f | (_ | r)
    all_goals simp [Except.map]

/-! ## The last number -/

theorem nul_notMem_statusLine (hw : Text.nul ∉ w.statusEnd) (s : Server) : Text.nul ∉ w.statusLine s := by
  have hspaced : ∀ x : ℤ, Text.nul ∉ spaced x := by
    intro x h
    rcases List.mem_append.1 h with h | h
    · exact nul_notMem_fmtInt x h
    · revert h; decide
  intro h
  rcases List.mem_append.1 h with h | h
  · rw [statusText_eq] at h
    rcases List.mem_append.1 h with h | h
    · obtain ⟨x, -, hx⟩ := List.mem_flatMap.1 h
      exact hspaced x hx
    · exact nul_notMem_fmtInt _ h
  · exact hw h

/-- The first five numbers are always read as they were written: it depends on the sixth. -/
theorem readsFirst_iff_last {y : ℤ} {u : Text} (hs : s.Ints) (hw : Text.nul ∉ w.statusEnd)
    (hlen : ((s :: ss).flatMap w.statusLine).length < bufferSize)
    (hscan : Text.scanInt (Text.fmtInt s.last ++ (w.statusEnd ++ ss.flatMap w.statusLine)) =
      some (y, u)) : w.ReadsFirst s ss ↔ y = s.last := by
  have hcstr : Text.cstr (monitorRecv ((s :: ss).flatMap w.statusLine)) = (s :: ss).flatMap w.statusLine := by
    rw [monitorRecv, List.take_of_length_le (by omega)]
    refine Text.cstr_of_notMem fun h => ?_
    obtain ⟨t, -, ht⟩ := List.mem_flatMap.1 h
    exact nul_notMem_statusLine hw t ht
  have htext : (s :: ss).flatMap w.statusLine = s.leading.flatMap spaced ++
      (Text.fmtInt s.last ++ (w.statusEnd ++ ss.flatMap w.statusLine)) := by
    simp [Version.statusLine, statusText_eq]
  have hleading : ∀ x ∈ s.leading, IsInt x := fun x hx => hs x (s.numbers_eq ▸ List.mem_append_left _ hx)
  have hlast : IsInt s.last :=
    hs _ (s.numbers_eq ▸ List.mem_append_right _ (List.mem_singleton_self _))
  have hread : monitorNumbers ((s :: ss).flatMap w.statusLine) =
      (storeInt y).map fun y => some (s.leading ++ [y]) := by
    rw [monitorNumbers, hcstr, htext]
    refine (scanNumbers_spaced hleading 0 _).trans ?_
    rw [scanNumbers, hscan]
    dsimp only
    cases storeInt y <;> rfl
  rw [Version.ReadsFirst, hread, s.numbers_eq]
  constructor
  · intro h
    unfold storeInt at h
    split_ifs at h
    · simpa [Except.map] using h
    · cases h
  · rintro rfl
    rw [storeInt_of hlast]
    rfl

/-- **A blank at the end of the line keeps the lines apart.** -/
theorem V9.readsFirst (hs : s.Ints) (hlen : ((s :: ss).flatMap V9.version.statusLine).length < bufferSize) :
    V9.version.ReadsFirst s ss :=
  (readsFirst_iff_last hs (by decide) hlen (Text.scanInt_fmtInt _ (by simp [V9.version, Text.NoDigit]))).2 rfl

namespace V10

/-- Nothing stands behind the line, or a minus sign, or a zero behind a zero. -/
def KeptApart (s : Server) : List Server → Prop
  | [] => True
  | t :: _ => t.currentVisitors < 0 ∨ t.currentVisitors = 0 ∧ s.last = 0

/-- The lines that follow, behind the first number of the next one. -/
theorem flatMap_statusLine (t : Server) (ss : List Server) :
    ∃ u, Text.NoDigit u ∧ (t :: ss).flatMap version.statusLine = Text.fmtInt t.currentVisitors ++ u := by
  refine ⟨[' '] ++ (t.leading.tail.flatMap spaced ++ Text.fmtInt t.last ++
    ss.flatMap version.statusLine), by simp [Text.NoDigit], ?_⟩
  simp [Version.statusLine, statusText_eq, Server.leading, spaced, version]

/-- **When the monitor reads the first of several lines.** -/
theorem readsFirst_iff (hs : s.Ints) (hlen : ((s :: ss).flatMap version.statusLine).length < bufferSize) :
    version.ReadsFirst s ss ↔ KeptApart s ss := by
  have hnul : Text.nul ∉ version.statusEnd := by decide
  cases ss with
  | nil =>
    have hend : Text.NoDigit [] := by simp [Text.NoDigit]
    have hscan := Text.scanInt_fmtInt s.last hend
    exact iff_of_true ((readsFirst_iff_last hs hnul hlen hscan).2 rfl) trivial
  | cons t ss =>
    obtain ⟨u, hu, htext⟩ := flatMap_statusLine t ss
    by_cases ht : t.currentVisitors < 0
    · have hstop : Text.NoDigit (Text.fmtInt t.currentVisitors ++ u) := by
        rw [Text.fmtInt, if_pos ht]
        simp [Text.NoDigit]
      have hscan := Text.scanInt_fmtInt s.last hstop
      rw [← htext] at hscan
      exact iff_of_true ((readsFirst_iff_last hs hnul hlen hscan).2 rfl) (.inl ht)
    · have hds : ∀ c ∈ Nat.toDigits 10 t.currentVisitors.natAbs, c.isDigit = true := fun _ => Text.isDigit_toDigits
      have hscan := Text.scanInt_fmtInt_append s.last hds hu
      have hdigits : Text.fmtInt t.currentVisitors = Nat.toDigits 10 t.currentVisitors.natAbs :=
        if_neg ht
      rw [← hdigits, ← htext] at hscan
      rw [readsFirst_iff_last hs hnul hlen hscan, hdigits, Text.extend_toDigits_eq_iff, KeptApart]
      constructor
      · rintro ⟨hlast, hfirst⟩
        exact .inr ⟨by omega, hlast⟩
      · rintro (hneg | ⟨hfirst, hlast⟩)
        · exact absurd hneg ht
        · exact ⟨hlast, by omega⟩

/-- A server with so many visitors, none of them at a painting. -/
def withVisitors (n : ℤ) : Server := { Server.init with currentVisitors := n }

theorem readsFirst_iff_zero : version.ReadsFirst (withVisitors 0) [withVisitors 0] :=
  (readsFirst_iff (by decide) (by decide)).2 (.inr ⟨rfl, rfl⟩)

/-- `1 0 0 0 0 0` and `2 0 0 0 0 0` together: the sixth number is read as 2. -/
theorem not_readsFirst : ¬ ∀ (s : Server) (ss : List Server), (∀ t ∈ s :: ss, t.Ints) →
    ((s :: ss).flatMap version.statusLine).length < bufferSize → version.ReadsFirst s ss := by
  intro hall
  have hread := hall (withVisitors 1) [withVisitors 2] (by decide) (by decide)
  have htwo : monitorNumbers ([withVisitors 1, withVisitors 2].flatMap version.statusLine) =
      .ok (some [1, 0, 0, 0, 0, 2]) := by decide +kernel
  have hsame := htwo.symm.trans hread
  revert hsame
  decide

end V10

end Gallery
