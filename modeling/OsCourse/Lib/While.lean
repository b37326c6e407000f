/-
  Loops that may run for ever: a round either goes on with a new state or leaves the loop with
  a result.
-/
import Mathlib.Logic.Relation
import Mathlib.Order.Basic

namespace While

universe u v
variable {σ : Type u} {β : Type v} {round : σ → σ ⊕ β} {s s' : σ} {b b' : β}

/-- At most `n` rounds of the loop; `none` if it has not been left. -/
def run (round : σ → σ ⊕ β) : ℕ → σ → Option β
  | 0, _ => none
  | n + 1, s =>
    match round s with
    | .inl s => run round n s
    | .inr b => some b

/-- The loop is left with the result `b`. -/
def Returns (round : σ → σ ⊕ β) (s : σ) (b : β) : Prop := ∃ n, run round n s = some b

theorem run_succ_of_inl (h : round s = .inl s') (n : ℕ) : run round (n + 1) s = run round n s' := by
  rw [run, h]

theorem run_succ_of_inr (h : round s = .inr b) (n : ℕ) : run round (n + 1) s = some b := by
  rw [run, h]

theorem returns_of_inr (h : round s = .inr b) : Returns round s b := ⟨1, run_succ_of_inr h 0⟩

theorem returns_iff_of_inr (h : round s = .inr b) : Returns round s b' ↔ b' = b := by
  constructor
  · rintro ⟨n, hn⟩
    cases n with
    | zero => cases hn
    | succ n =>
      rw [run_succ_of_inr h] at hn
      exact (Option.some.inj hn).symm
  · rintro rfl
    exact returns_of_inr h

/-- One round. -/
theorem returns_iff_of_inl (h : round s = .inl s') : Returns round s b ↔ Returns round s' b := by
  constructor
  · rintro ⟨n, hn⟩
    cases n with
    | zero => cases hn
    | succ n => exact ⟨n, (run_succ_of_inl h n).symm.trans hn⟩
  · rintro ⟨n, hn⟩
    exact ⟨n + 1, (run_succ_of_inl h n).trans hn⟩

/-- A loop has one result at most. -/
theorem Returns.unique (h : Returns round s b) (h' : Returns round s b') : b = b' := by
  obtain ⟨n, hn⟩ := h
  induction n generalizing s with
  | zero => cases hn
  | succ n ih =>
    rcases hr : round s with s' | c
    · rw [run_succ_of_inl hr] at hn
      exact ih ((returns_iff_of_inl hr).1 h') hn
    · rw [run_succ_of_inr hr] at hn
      exact (Option.some.inj hn).symm.trans ((returns_iff_of_inr hr).1 h').symm

/-- The loop comes from one state to the other. -/
def Leads (round : σ → σ ⊕ β) : σ → σ → Prop := Relation.ReflTransGen fun s s' => round s = .inl s'

theorem Leads.of_inl (h : round s = .inl s') : Leads round s s' := .single h

theorem Leads.trans {s'' : σ} (h : Leads round s s') (h' : Leads round s' s'') : Leads round s s'' :=
  Relation.ReflTransGen.trans h h'

theorem Leads.step {s'' : σ} (h : Leads round s s') (hr : round s' = .inl s'') : Leads round s s'' := .tail h hr

theorem Leads.returns_iff (h : Leads round s s') : Returns round s b ↔ Returns round s' b := by
  induction h with
  | refl => rfl
  | tail _ hr ih => rw [ih, returns_iff_of_inl hr]

/-- **The invariant rule.** -/
theorem Returns.of_invariant {J : σ → Prop} {Q : β → Prop} (hstep : ∀ s s', J s → round s = .inl s' → J s')
    (hleave : ∀ s b, J s → round s = .inr b → Q b) (h : Returns round s b) (hs : J s) : Q b := by
  obtain ⟨n, hn⟩ := h
  induction n generalizing s with
  | zero => cases hn
  | succ n ih =>
    rcases hr : round s with s' | c
    · exact ih (hstep s s' hs hr) ((run_succ_of_inl hr n).symm.trans hn)
    · obtain rfl := Option.some.inj ((run_succ_of_inr hr n).symm.trans hn)
      exact hleave s c hs hr

/-- **The rule for loops that end**: an invariant and a variant, which is less than the number
    of rounds. -/
theorem run_of_variant {J : σ → Prop} {Q : β → Prop} (variant : σ → ℕ)
    (hround : ∀ s, J s → (∃ b, round s = .inr b ∧ Q b) ∨ ∃ s', round s = .inl s' ∧ J s' ∧ variant s' < variant s)
    (hs : J s) {n : ℕ} (hn : variant s < n) : ∃ b, run round n s = some b ∧ Q b := by
  induction n generalizing s with
  | zero => exact absurd hn (Nat.not_lt_zero _)
  | succ n ih =>
    rcases hround s hs with ⟨b, hr, hb⟩ | ⟨s', hr, hs', hlt⟩
    · exact ⟨b, run_succ_of_inr hr n, hb⟩
    · obtain ⟨b, hret, hb⟩ := ih hs' (Nat.lt_of_lt_of_le hlt (Nat.le_of_lt_succ hn))
      exact ⟨b, (run_succ_of_inl hr n).trans hret, hb⟩

theorem returns_of_variant {J : σ → Prop} {Q : β → Prop} (variant : σ → ℕ)
    (hround : ∀ s, J s → (∃ b, round s = .inr b ∧ Q b) ∨ ∃ s', round s = .inl s' ∧ J s' ∧ variant s' < variant s)
    (hs : J s) : ∃ b, Returns round s b ∧ Q b := by
  obtain ⟨b, hrun, hb⟩ := run_of_variant variant hround hs (Nat.lt_succ_self _)
  exact ⟨b, ⟨_, hrun⟩, hb⟩

/-- **The rule for counting loops**: `J i` holds before round `i`, and there are at most `n`
    rounds. -/
theorem run_of_counter {J : ℕ → σ → Prop} {Q : β → Prop} {i n fuel : ℕ}
    (hround : ∀ i s, i < n → J i s →
      (∃ b, round s = .inr b ∧ Q b) ∨ ∃ s', round s = .inl s' ∧ i + 1 < n ∧ J (i + 1) s')
    (hs : J i s) (hi : i < n) (hfuel : n ≤ i + fuel) : ∃ b, run round fuel s = some b ∧ Q b := by
  induction fuel generalizing i s with
  | zero => exact absurd hi (Nat.not_lt.2 hfuel)
  | succ fuel ih =>
    rcases hround i s hi hs with ⟨b, hr, hb⟩ | ⟨s', hr, hi', hs'⟩
    · exact ⟨b, run_succ_of_inr hr fuel, hb⟩
    · obtain ⟨b, hret, hb⟩ := ih hs' hi' (by rw [Nat.add_right_comm, Nat.add_assoc]; exact hfuel)
      exact ⟨b, (run_succ_of_inl hr fuel).trans hret, hb⟩

/-- **The rule for `do … while` over `n` elements**: round `i` is followed by another one exactly
    if there is an element left. -/
theorem run_of_elements {J : ℕ → σ → Prop} {Q : β → Prop} {i n fuel : ℕ}
    (hround : ∀ i s, i < n → J i s →
      ∃ s' b, round s = (if i + 1 < n then .inl s' else .inr b) ∧ J (i + 1) s' ∧ (i + 1 = n → Q b))
    (hs : J i s) (hi : i < n) (hfuel : n ≤ i + fuel) : ∃ b, run round fuel s = some b ∧ Q b := by
  refine run_of_counter ?_ hs hi hfuel
  intro i s hi hs
  obtain ⟨s', b, hr, hs', hb⟩ := hround i s hi hs
  by_cases hmore : i + 1 < n
  · exact .inr ⟨s', hr.trans (if_pos hmore), hmore, hs'⟩
  · exact .inl ⟨b, hr.trans (if_neg hmore), hb (Nat.le_antisymm hi (Nat.not_lt.1 hmore))⟩

/-- **The rule for a loop that tests each step**: it goes on as long as the test succeeds, and is
    left behind the last step or at the first test that fails. -/
theorem returns_of_tests {J : ℕ → σ → Prop} {P : ℕ → Prop} {failed : ℕ → β} {done : β} {i n : ℕ}
    (hround : ∀ i s, i < n → J i s → (P (i + 1) ∧ ∃ s', round s = .inl s' ∧ J (i + 1) s') ∨
      (¬ P (i + 1) ∧ round s = .inr (failed i)))
    (hdone : ∀ s, J n s → round s = .inr done) (hs : J i s) (hi : i ≤ n) :
    (Returns round s done ∧ ∀ j, i < j → j ≤ n → P j) ∨
      ∃ k < n, Returns round s (failed k) ∧ ¬ P (k + 1) ∧ ∀ j, i < j → j ≤ k → P j := by
  induction hd : n - i generalizing i s with
  | zero =>
    obtain rfl := Nat.le_antisymm hi (Nat.sub_eq_zero_iff_le.1 hd)
    exact .inl ⟨returns_of_inr (hdone s hs), fun j hj hj' => absurd hj (Nat.not_lt.2 hj')⟩
  | succ d ih =>
    have hlt : i < n := Nat.lt_of_sub_ne_zero (hd ▸ Nat.succ_ne_zero d)
    rcases hround i s hlt hs with ⟨hfit, s', hr, hs'⟩ | ⟨hfit, hr⟩
    · have hfits : ∀ k, (∀ j, i + 1 < j → j ≤ k → P j) → ∀ j, i < j → j ≤ k → P j := by
        intro k h j hj hjk
        rcases Nat.lt_or_eq_of_le hj with hj | rfl
        · exact h j hj hjk
        · exact hfit
      rcases ih hs' hlt (by rw [Nat.sub_succ, hd, Nat.pred_succ]) with ⟨hret, h⟩ | ⟨k, hk, hret, hnot, h⟩
      · exact .inl ⟨(returns_iff_of_inl hr).2 hret, hfits n h⟩
      · exact .inr ⟨k, hk, (returns_iff_of_inl hr).2 hret, hnot, hfits k h⟩
    · exact .inr ⟨i, hlt, returns_of_inr hr, hfit, fun j hj hj' => absurd hj (Nat.not_lt.2 hj')⟩

/-- **The rule for loops that do not end**: an invariant under which the loop is not left. -/
theorem not_returns_of_invariant {J : σ → Prop} (hround : ∀ s, J s → ∃ s', round s = .inl s' ∧ J s')
    (hs : J s) (b : β) : ¬ Returns round s b := by
  rintro ⟨n, hn⟩
  induction n generalizing s with
  | zero => cases hn
  | succ n ih =>
    obtain ⟨s', hr, hs'⟩ := hround s hs
    exact ih hs' ((run_succ_of_inl hr n).symm.trans hn)

end While
