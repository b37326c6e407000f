/-
  Bounded FIFO queues: what a sequence of calls returns and leaves, and that an
  implementation of several queues behaves as each of them alone.
-/
import Mathlib.Data.List.Basic
import Mathlib.Logic.Function.Basic

namespace Fifo

variable {α β σ ι : Type}

/-- A call on a queue. -/
inductive Call (α : Type) where
  | add (x : α)
  | get
  deriving DecidableEq

/-- Append, if there is room. -/
def push (cap : ℕ) (q : List α) (x : α) : List α := if q.length < cap then q ++ [x] else q

/-- What the calls of `get` return, and the queue after all calls. -/
def run (cap : ℕ) : List α → List (Call α) → List (Option α) × List α
  | q, [] => ([], q)
  | q, .add x :: calls => run cap (push cap q x) calls
  | q, .get :: calls => (q.head? :: (run cap q.tail calls).1, (run cap q.tail calls).2)

/-- The elements that the calls append. -/
def accepted (cap : ℕ) : List α → List (Call α) → List α
  | _, [] => []
  | q, .add x :: calls => (if q.length < cap then [x] else []) ++ accepted cap (push cap q x) calls
  | q, .get :: calls => accepted cap q.tail calls

variable {cap : ℕ} {q : List α} {calls : List (Call α)}

theorem length_push_le (hq : q.length ≤ cap) (x : α) : (push cap q x).length ≤ cap := by
  unfold push
  split_ifs with h
  · rw [List.length_append, List.length_singleton]
    omega
  · exact hq

/-- A queue never has more elements than its capacity. -/
theorem length_run_le (hq : q.length ≤ cap) : (run cap q calls).2.length ≤ cap := by
  induction calls generalizing q with
  | nil => exact hq
  | cons call calls ih =>
    cases call with
    | add x => exact ih (length_push_le hq x)
    | get => exact ih (by rw [List.length_tail]; omega)

/-- First in, first out: the elements that are returned, followed by those that are left, are
    the elements that were there and have been accepted, in order. -/
theorem returned_append_run : (run cap q calls).1.reduceOption ++ (run cap q calls).2 = q ++ accepted cap q calls := by
  induction calls generalizing q with
  | nil => exact (List.append_nil q).symm
  | cons call calls ih =>
    cases call with
    | add x =>
      rw [run, accepted, ih, push]
      split_ifs
      · rw [List.append_assoc]
      · rfl
    | get =>
      rw [run, accepted]
      cases q with
      | nil => exact ih
      | cons x q => exact congrArg (x :: ·) ih

/-! ## Several queues -/

/-- An implementation of a family of queues; `encode` is how `get` returns an element, or that
    there is none. -/
structure Family (σ ι α β : Type) [DecidableEq ι] (cap : ℕ) where
  contents : σ → ι → List α
  add : σ → ι → α → σ
  get : σ → ι → β × σ
  encode : Option α → β
  contents_add : ∀ s i x, contents (add s i x) = Function.update (contents s) i (push cap (contents s i) x)
  get_fst : ∀ s i, (get s i).1 = encode (contents s i).head?
  contents_get : ∀ s i, contents (get s i).2 = Function.update (contents s) i (contents s i).tail

namespace Family

variable [DecidableEq ι]

/-- What the calls of `get` return, with the queue of each, and the state after all calls. -/
def run (F : Family σ ι α β cap) : σ → List (ι × Call α) → List (ι × β) × σ
  | s, [] => ([], s)
  | s, (i, .add x) :: calls => run F (F.add s i x) calls
  | s, (i, .get) :: calls =>
    let r := run F (F.get s i).2 calls
    ((i, (F.get s i).1) :: r.1, r.2)

/-- What belongs to one queue. -/
def only (i : ι) (l : List (ι × α)) : List α := (l.filter (·.1 = i)).map Prod.snd

theorem only_cons_self (i : ι) (x : α) (l : List (ι × α)) : only i ((i, x) :: l) = x :: only i l := by
  simp [only]

theorem only_cons_of_ne {i j : ι} (h : j ≠ i) (x : α) (l : List (ι × α)) : only i ((j, x) :: l) = only i l := by
  simp [only, h]

/-- **Every queue behaves as if it were alone**: its contents and what its calls return depend
    on its own calls only. -/
theorem run_only (F : Family σ ι α β cap) (s : σ) (calls : List (ι × Call α)) (i : ι) :
    F.contents (F.run s calls).2 i = (Fifo.run cap (F.contents s i) (only i calls)).2 ∧
      only i (F.run s calls).1 = (Fifo.run cap (F.contents s i) (only i calls)).1.map F.encode := by
  induction calls generalizing s with
  | nil => exact ⟨rfl, rfl⟩
  | cons c calls ih =>
    obtain ⟨j, call⟩ := c
    rcases eq_or_ne j i with rfl | hne
    · rw [only_cons_self]
      cases call with
      | add x =>
        have := ih (F.add s j x)
        rw [F.contents_add, Function.update_self] at this
        exact this
      | get =>
        have := ih (F.get s j).2
        rw [F.contents_get, Function.update_self] at this
        refine ⟨this.1, ?_⟩
        rw [run, only_cons_self, this.2, Fifo.run, List.map_cons, F.get_fst]
    · rw [only_cons_of_ne hne]
      cases call with
      | add x =>
        have := ih (F.add s j x)
        rw [F.contents_add, Function.update_of_ne hne.symm] at this
        exact this
      | get =>
        have := ih (F.get s j).2
        rw [F.contents_get, Function.update_of_ne hne.symm] at this
        refine ⟨this.1, ?_⟩
        rw [run, only_cons_of_ne hne, this.2]

end Family

end Fifo
