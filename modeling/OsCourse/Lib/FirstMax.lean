/-
  The loop that looks for the first maximum of a sequence.
-/
import Mathlib.Data.List.Range
import Mathlib.Order.Lattice

namespace FirstMax

universe u
variable {α : Type u} [LinearOrder α] {f g : ℕ → α} {m n b b' : ℕ}

/-- `best = 0; for (i = 1; i < n; i++) if (f(i) > f(best)) best = i;` -/
def firstMax (f : ℕ → α) (n : ℕ) : ℕ :=
  (List.range' 1 (n - 1)).foldl (fun best i => if f i > f best then i else best) 0

/-- `b` is the first of the places below `n` with the greatest value. -/
structure IsFirstMax (f : ℕ → α) (n b : ℕ) : Prop where
  lt : b < n
  le : ∀ i < n, f i ≤ f b
  first : ∀ i < b, f i < f b

theorem firstMax_one (f : ℕ → α) : firstMax f 1 = 0 := rfl

theorem firstMax_succ (f : ℕ → α) (hn : 0 < n) :
    firstMax f (n + 1) = if f n > f (firstMax f n) then n else firstMax f n := by
  obtain ⟨k, rfl⟩ := Nat.exists_eq_add_of_lt hn
  have h : 0 + k + 1 + 1 - 1 = (0 + k + 1 - 1) + 1 := by omega
  rw [firstMax, h, List.range'_concat, List.foldl_append]
  simp only [List.foldl_cons, List.foldl_nil]
  have h' : 1 + 1 * (0 + k + 1 - 1) = 0 + k + 1 := by omega
  rw [h']; rfl

/-- **The loop finds the first maximum.** -/
theorem isFirstMax_firstMax (f : ℕ → α) (hn : 0 < n) : IsFirstMax f n (firstMax f n) := by
  induction n with
  | zero => exact absurd hn (lt_irrefl 0)
  | succ n ih =>
    rcases Nat.eq_zero_or_pos n with rfl | hpos
    · rw [firstMax_one]
      refine ⟨Nat.one_pos, fun i hi => ?_, fun i hi => absurd hi (Nat.not_lt_zero i)⟩
      obtain rfl : i = 0 := by omega
      exact le_refl _
    · obtain ⟨hlt, hle, hfirst⟩ := ih hpos
      rw [firstMax_succ f hpos]
      split_ifs with h
      · -- the new value is greater than all before
        refine ⟨Nat.lt_succ_self n, fun i hi => ?_, fun i hi => lt_of_le_of_lt (hle i hi) h⟩
        rcases Nat.lt_succ_iff_lt_or_eq.1 hi with hi | rfl
        · exact le_of_lt (lt_of_le_of_lt (hle i hi) h)
        · exact le_refl _
      · refine ⟨Nat.lt_succ_of_lt hlt, fun i hi => ?_, hfirst⟩
        rcases Nat.lt_succ_iff_lt_or_eq.1 hi with hi | rfl
        · exact hle i hi
        · exact not_lt.1 h

/-- Behind the places below `m` there is nothing greater. -/
theorem IsFirstMax.of_tail (h : IsFirstMax f n b) (hm : 0 < m) (hmn : m ≤ n)
    (htail : ∀ i, m ≤ i → i < n → ∀ j < m, f i ≤ f j) : IsFirstMax f m b := by
  have hb : b < m := by
    by_contra hge
    have hge := not_lt.1 hge
    exact absurd (htail b hge h.lt 0 hm) (not_le.2 (h.first 0 (lt_of_lt_of_le hm hge)))
  exact ⟨hb, fun i hi => h.le i (lt_of_lt_of_le hi hmn), h.first⟩

end FirstMax
