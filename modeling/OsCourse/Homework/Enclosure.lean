/-
  The animals of an enclosure (hw2) under any sequence of calls.
-/
import Mathlib.Data.Int.Notation
import Mathlib.Data.List.Nodup
import OsCourse.Lib.Transition

namespace Zoo

open Transition

/-! ## The methods -/

structure Enclosure where
  Capacity : ℤ
  AnimalIDs : List String

/-- `errors.New("enclosure is full")` -/
def full : String := "enclosure is full"

/-- `AddAnimal`, with its error if there is one. -/
def Enclosure.AddAnimal (e : Enclosure) (animalID : String) : Enclosure × Option String :=
  if (e.AnimalIDs.length : ℤ) ≥ e.Capacity then (e, some full)
  else ({ e with AnimalIDs := e.AnimalIDs ++ [animalID] }, none)

/-- `RemoveAnimal`, which leaves its loop at the first index with the id. -/
def Enclosure.RemoveAnimal (e : Enclosure) (animalID : String) : Enclosure :=
  match e.AnimalIDs.findIdx? (· == animalID) with
  | some i => { e with AnimalIDs := e.AnimalIDs.take i ++ e.AnimalIDs.drop (i + 1) }
  | none => e

inductive Call
  | AddAnimal (animalID : String)
  | RemoveAnimal (animalID : String)

/-- The enclosure after a call. -/
def Enclosure.call (e : Enclosure) : Call → Enclosure
  | .AddAnimal id => (e.AddAnimal id).1
  | .RemoveAnimal id => e.RemoveAnimal id

/-- Any sequence of calls on an enclosure that is empty at first. -/
def calls (c : ℤ) : System Enclosure Call where
  init e := e = { Capacity := c, AnimalIDs := [] }
  step e a e' := e' = e.call a

/-! ## What they are for -/

/-- There is a place for each animal. -/
structure Valid (c : ℤ) (e : Enclosure) : Prop where
  length_le : (e.AnimalIDs.length : ℤ) ≤ c
  nodup : e.AnimalIDs.Nodup

/-- `AddAnimal` fails exactly if nothing changes, and `RemoveAnimal` takes out the animal and no
    other one. -/
def Answers (e : Enclosure) : Call → Prop
  | .AddAnimal id => (e.AddAnimal id).2 ≠ none ↔ (e.AddAnimal id).1.AnimalIDs = e.AnimalIDs
  | .RemoveAnimal id => id ∉ (e.RemoveAnimal id).AnimalIDs ∧
      (e.RemoveAnimal id).AnimalIDs.filter (· ≠ id) = e.AnimalIDs.filter (· ≠ id)

/-- An animal is added when it is not in the enclosure, or when the enclosure is full. -/
def Fresh (e : Enclosure) : Call → Prop
  | .AddAnimal id => e.Capacity ≤ e.AnimalIDs.length ∨ id ∉ e.AnimalIDs
  | .RemoveAnimal _ => True

variable {c : ℤ} {e : Enclosure} {a : Call} {id : String}

/-! ## The methods on the list -/

theorem AnimalIDs_AddAnimal (h : ¬ e.Capacity ≤ e.AnimalIDs.length) (id : String) :
    (e.AddAnimal id).1.AnimalIDs = e.AnimalIDs ++ [id] := by
  rw [Enclosure.AddAnimal, if_neg h]

theorem AddAnimal_of_full (h : e.Capacity ≤ e.AnimalIDs.length) (id : String) :
    e.AddAnimal id = (e, some full) := if_pos h

theorem AnimalIDs_RemoveAnimal (e : Enclosure) (id : String) :
    (e.RemoveAnimal id).AnimalIDs = e.AnimalIDs.erase id := by
  rw [List.erase_eq_eraseP', List.eraseP_eq_eraseIdx, Enclosure.RemoveAnimal]
  cases e.AnimalIDs.findIdx? (· == id) with
  | none => rfl
  | some i => exact (List.eraseIdx_eq_take_drop_succ e.AnimalIDs i).symm

theorem Capacity_call (e : Enclosure) (a : Call) : (e.call a).Capacity = e.Capacity := by
  cases a with
  | AddAnimal id =>
    show (e.AddAnimal id).1.Capacity = e.Capacity
    unfold Enclosure.AddAnimal
    split_ifs <;> rfl
  | RemoveAnimal id =>
    show (e.RemoveAnimal id).Capacity = e.Capacity
    unfold Enclosure.RemoveAnimal
    split <;> rfl

/-! ## Sequences of calls -/

theorem Valid.call (h : Valid e.Capacity e) (hf : Fresh e a) : Valid e.Capacity (e.call a) := by
  cases a with
  | AddAnimal id =>
    by_cases hfull : e.Capacity ≤ e.AnimalIDs.length
    · rw [Enclosure.call, AddAnimal_of_full hfull]
      exact h
    · have hnew : id ∉ e.AnimalIDs := hf.resolve_left hfull
      constructor
      · rw [Enclosure.call, AnimalIDs_AddAnimal hfull, List.length_append, List.length_singleton]
        omega
      · rw [Enclosure.call, AnimalIDs_AddAnimal hfull]
        refine List.nodup_append.2 ⟨h.nodup, List.nodup_singleton id, ?_⟩
        intro x hx y hy hxy
        obtain rfl := List.mem_singleton.1 hy
        exact hnew (hxy ▸ hx)
  | RemoveAnimal id =>
    constructor
    · have hle := List.length_erase_le (a := id) (l := e.AnimalIDs)
      have hlen := h.length_le
      rw [Enclosure.call, AnimalIDs_RemoveAnimal]
      omega
    · rw [Enclosure.call, AnimalIDs_RemoveAnimal]
      exact h.nodup.erase id

theorem not_valid_call (hf : ¬ Fresh e a) : ¬ Valid c (e.call a) := by
  cases a with
  | AddAnimal id =>
    obtain ⟨hfull, hmem⟩ := not_or.1 hf
    intro h
    have hnodup := h.nodup
    rw [Enclosure.call, AnimalIDs_AddAnimal hfull] at hnodup
    have hne := (List.nodup_append.1 hnodup).2.2 id (not_not.1 hmem) id (List.mem_singleton_self id)
    exact hne rfl
  | RemoveAnimal id => exact absurd trivial hf

theorem Valid.answers (h : Valid c e) (a : Call) : Answers e a := by
  cases a with
  | AddAnimal id =>
    show (e.AddAnimal id).2 ≠ none ↔ (e.AddAnimal id).1.AnimalIDs = e.AnimalIDs
    by_cases hfull : e.Capacity ≤ e.AnimalIDs.length
    · rw [AddAnimal_of_full hfull]
      exact iff_of_true nofun rfl
    · rw [AnimalIDs_AddAnimal hfull, Enclosure.AddAnimal, if_neg hfull]
      exact iff_of_false (by simp) (by simp)
  | RemoveAnimal id =>
    show id ∉ (e.RemoveAnimal id).AnimalIDs ∧ _
    rw [AnimalIDs_RemoveAnimal, h.nodup.erase_eq_filter]
    refine ⟨by simp, ?_⟩
    rw [List.filter_filter]
    refine List.filter_congr fun x _ => ?_
    simp

/-- **Every animal has one place** exactly if no animal is added twice. -/
theorem always_valid_iff_fresh (hc : 0 ≤ c) {tr : List (Enclosure × Call)} (h : (calls c).Exec tr e) :
    System.Always (Valid c) tr e ∧ (∀ x ∈ tr, Answers x.1 x.2) ↔ ∀ x ∈ tr, Fresh x.1 x.2 := by
  have hinv : ((calls c).restrict Fresh).Inductive fun e => e.Capacity = c ∧ Valid c e := by
    constructor
    · rintro e rfl
      exact ⟨rfl, hc, List.nodup_nil⟩
    · rintro e a e' ⟨rfl, hv⟩ ⟨rfl, hf⟩
      exact ⟨Capacity_call e a, hv.call hf⟩
  have hbad : ∀ e a e', e.Capacity = c ∧ Valid c e → (calls c).step e a e' → ¬ Fresh e a → ¬ Valid c e' := by
    rintro e a e' - rfl hf
    exact not_valid_call hf
  rw [← h.always_iff hinv (fun e he => he.2) hbad]
  constructor
  · intro hv
    exact hv.1
  · intro hv
    refine ⟨hv, ?_⟩
    intro x hx
    exact (hv.1 x hx).answers x.2

/-- An enclosure that is full after the first animal. -/
theorem always_valid_iff_fresh_full :
    System.Always (Valid 1) [(⟨1, []⟩, Call.AddAnimal "lion"), (⟨1, ["lion"]⟩, Call.AddAnimal "lion")]
        ⟨1, ["lion"]⟩ ∧
      ∀ x ∈ [((⟨1, []⟩ : Enclosure), Call.AddAnimal "lion"), (⟨1, ["lion"]⟩, Call.AddAnimal "lion")],
        Answers x.1 x.2 := by
  have hexec : (calls 1).Exec ([] ++ [(⟨1, []⟩, Call.AddAnimal "lion")] ++ [(⟨1, ["lion"]⟩, Call.AddAnimal "lion")])
      ⟨1, ["lion"]⟩ := .snoc (.snoc (.init rfl) rfl) rfl
  refine (always_valid_iff_fresh (by decide) hexec).2 fun x hx => ?_
  rcases List.mem_cons.1 hx with rfl | hx
  · exact .inr List.not_mem_nil
  · obtain rfl := List.mem_singleton.1 hx
    exact .inl (by decide)

/-- An animal that is added twice is still there when it has been removed. -/
theorem not_valid_twice :
    (calls 3).Reachable ⟨3, ["lion", "lion"]⟩ ∧ ¬ Valid 3 ⟨3, ["lion", "lion"]⟩ ∧
      ¬ Answers ⟨3, ["lion", "lion"]⟩ (.RemoveAnimal "lion") := by
  have hzero : (calls 3).Reachable ⟨3, []⟩ := .init rfl
  have hone : (calls 3).Reachable ⟨3, ["lion"]⟩ := hzero.step (a := .AddAnimal "lion") rfl
  refine ⟨hone.step (a := .AddAnimal "lion") rfl, ?_, ?_⟩
  · intro h
    have hnodup := h.nodup
    revert hnodup
    decide
  · rintro ⟨hmem, -⟩
    revert hmem
    rw [AnimalIDs_RemoveAnimal]
    decide

end Zoo
