/-
  Counting loops whose body may fail.
-/
import Mathlib.Data.List.Range
import Mathlib.Order.Lattice

namespace Loop

variable {σ : Type} {a b i : ℕ} {body : σ → ℕ → Option σ} {s : σ}

/-- `for (i = a; i < b; i++) body` -/
def forLoop (a b : ℕ) (body : σ → ℕ → Option σ) (s : σ) : Option σ := (List.range' a (b - a)).foldlM body s

theorem forLoop_of_le (h : b ≤ a) (body : σ → ℕ → Option σ) (s : σ) : forLoop a b body s = some s := by
  rw [forLoop, Nat.sub_eq_zero_of_le h]
  rfl

/-- The last round. -/
theorem forLoop_succ (h : a ≤ b) (body : σ → ℕ → Option σ) (s : σ) :
    forLoop a (b + 1) body s = (forLoop a b body s).bind fun s' => body s' b := by
  rw [forLoop, forLoop, Nat.succ_sub h, List.range'_concat, List.foldlM_append, Nat.one_mul, Nat.add_sub_cancel' h]
  simp only [List.foldlM_cons, List.foldlM_nil, bind_pure]
  rfl

/-- **The invariant rule**: a body that keeps the invariant does not fail, and nor does the
    loop. -/
theorem forLoop_invariant {J : ℕ → σ → Prop} (hab : a ≤ b) (hinit : J a s)
    (hstep : ∀ i s, a ≤ i → i < b → J i s → ∃ s', body s i = some s' ∧ J (i + 1) s') :
    ∃ s', forLoop a b body s = some s' ∧ J b s' := by
  induction b, hab using Nat.le_induction with
  | base => exact ⟨s, forLoop_of_le (Nat.le_refl a) body s, hinit⟩
  | succ b hab ih =>
    obtain ⟨s₁, h₁, hJ₁⟩ := ih fun i s ha hb => hstep i s ha (Nat.lt_succ_of_lt hb)
    obtain ⟨s₂, h₂, hJ₂⟩ := hstep b s₁ hab (Nat.lt_succ_self b) hJ₁
    exact ⟨s₂, by rw [forLoop_succ hab, h₁, Option.bind_some, h₂], hJ₂⟩

/-- When the state before round `i` is `f i`. -/
theorem forLoop_eq {f : ℕ → σ} (hab : a ≤ b) (hstep : ∀ i, a ≤ i → i < b → body (f i) i = some (f (i + 1))) :
    forLoop a b body (f a) = some (f b) := by
  obtain ⟨s, hs, rfl⟩ := forLoop_invariant (J := fun i s => s = f i) hab rfl fun i s ha hb heq =>
    ⟨f (i + 1), heq ▸ hstep i ha hb, rfl⟩
  exact hs

/-- A loop that comes to a round that always fails. -/
theorem forLoop_eq_none (hai : a ≤ i) (hib : i < b) (h : ∀ s, body s i = none) : forLoop a b body s = none := by
  induction b, hib using Nat.le_induction with
  | base =>
    rw [forLoop_succ hai]
    cases forLoop a i body s with
    | none => rfl
    | some s' => exact h s'
  | succ b hib ih =>
    rw [forLoop_succ (by omega), ih, Option.bind_none]

end Loop
