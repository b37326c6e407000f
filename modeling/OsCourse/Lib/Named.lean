/-
  Objects behind one name: who opens the name gets the object that it stands for, or a new
  one; an object whose name has been removed goes on for those that have it.
-/
import Mathlib.Data.Nat.Notation
import Mathlib.Data.List.Basic

universe u

/-- The object that the name stands for, and all that have been created. -/
structure Named (α : Type u) where
  current : Option ℕ
  objects : List α

namespace Named

variable {α : Type u} {s : Named α} {g h : ℕ} {f : α → α} {fresh a : α}

def empty : Named α := { current := none, objects := [] }

/-- Open the object, or create it as `fresh`. -/
def openOrCreate (s : Named α) (fresh : α) : Named α × ℕ :=
  match s.current with
  | some g => (s, g)
  | none => ({ current := some s.objects.length, objects := s.objects ++ [fresh] }, s.objects.length)

/-- Work on the object `g`. -/
def modify (s : Named α) (g : ℕ) (f : α → α) : Named α := { s with objects := s.objects.modify g f }

/-- Remove the name. -/
def unlink (s : Named α) : Named α := { s with current := none }

/-- The name stands for an object that exists. -/
def Ok (s : Named α) : Prop := ∀ g, s.current = some g → g < s.objects.length

@[simp] theorem length_modify : (s.modify g f).objects.length = s.objects.length :=
  List.length_modify f s.objects g

/-- The objects after one has been worked on. -/
theorem getElem?_modify (hg : (s.modify h f).objects[g]? = some a) :
    ∃ b, s.objects[g]? = some b ∧ a = if g = h then f b else b := by
  by_cases heq : g = h
  · subst heq
    obtain ⟨b, hb, rfl⟩ := Option.map_eq_some_iff.1 ((List.getElem?_modify_eq f g s.objects).symm.trans hg)
    exact ⟨b, hb, (if_pos rfl).symm⟩
  · exact ⟨a, (List.getElem?_modify_ne f s.objects (Ne.symm heq)).symm.trans hg, (if_neg heq).symm⟩

theorem current_openOrCreate : (s.openOrCreate fresh).1.current = some (s.openOrCreate fresh).2 := by
  rw [openOrCreate]
  split
  · next hc => exact hc
  · rfl

theorem current_openOrCreate_of_some (h : s.current = some g) : (s.openOrCreate fresh).1.current = some g := by
  rw [openOrCreate, h]
  exact h

theorem length_openOrCreate : s.objects.length ≤ (s.openOrCreate fresh).1.objects.length := by
  rw [openOrCreate]
  split
  · exact Nat.le_refl _
  · rw [List.length_append]
    exact Nat.le_add_right _ _

/-- The objects after the name has been opened: those that there were, and maybe a new
    one. -/
theorem getElem?_openOrCreate (hg : (s.openOrCreate fresh).1.objects[g]? = some a) :
    s.objects[g]? = some a ∨ g = s.objects.length ∧ a = fresh := by
  rw [openOrCreate] at hg
  split at hg
  · exact Or.inl hg
  · by_cases hlt : g < s.objects.length
    · rw [List.getElem?_append_left hlt] at hg
      exact Or.inl hg
    · rw [List.getElem?_append_right (Nat.le_of_not_lt hlt), List.getElem?_singleton] at hg
      split_ifs at hg with h0
      exact Or.inr ⟨by omega, (Option.some.inj hg).symm⟩

theorem Ok.openOrCreate (h : s.Ok) : (s.openOrCreate fresh).1.Ok := by
  rw [Named.openOrCreate]
  split
  · exact h
  · intro g hg
    cases hg
    simp

theorem Ok.modify (h : s.Ok) : (s.modify g f).Ok := by
  intro k hk
  rw [length_modify]
  exact h k hk

theorem Ok.unlink : s.unlink.Ok := fun g hg => by cases hg

/-- The only object that has been created, under its name. -/
def single (a : α) : Named α := { current := some 0, objects := [a] }

theorem openOrCreate_empty : empty.openOrCreate fresh = (single fresh, 0) := rfl

theorem openOrCreate_single : (single a).openOrCreate fresh = (single a, 0) := rfl

theorem modify_single : (single a).modify 0 f = single (f a) := rfl

end Named
