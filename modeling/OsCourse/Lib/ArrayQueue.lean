/-
  A bounded FIFO queue in an array: elements are appended behind the last one
  and taken from the front by moving the others one cell down.
-/
import Mathlib.Data.List.Basic

universe u

/-- An array of `cap` cells, of which the first `count` are in use. -/
structure ArrayQueue (α : Type u) (cap : ℕ) where
  cells : Vector α cap
  count : Fin (cap + 1)

namespace ArrayQueue
variable {α : Type u} {cap : ℕ}

/-- The queued elements, oldest first. -/
def contents (q : ArrayQueue α cap) : List α := q.cells.toList.take q.count

/-- `if (count < cap) cells[count++] = x;` -/
def push (q : ArrayQueue α cap) (x : α) : ArrayQueue α cap :=
  if h : q.count < cap then ⟨q.cells.set q.count x, ⟨q.count + 1, by omega⟩⟩ else q

/-- The array when the loop `for (i = 1; i < n; i++) cells[i - 1] = cells[i];`
    is done. -/
def shift (cells : Vector α cap) : (n : ℕ) → n ≤ cap → Vector α cap
  | 0, _ => cells
  | 1, _ => cells
  | n + 2, h =>
    let cells' := shift cells (n + 1) (by omega)
    cells'.set n cells'[n + 1]

/-- Take the oldest element, if there is one. -/
def pop (q : ArrayQueue α cap) : Option (α × ArrayQueue α cap) :=
  if h : 0 < q.count.val then
    some (q.cells[0], ⟨shift q.cells q.count (by omega), ⟨q.count - 1, by omega⟩⟩)
  else none

@[simp] theorem mk_cells_count (q : ArrayQueue α cap) : mk q.cells q.count = q := rfl

@[simp] theorem length_contents (q : ArrayQueue α cap) : q.contents.length = q.count := by
  simp [contents]; omega

/-! ## Appending -/

theorem contents_push (q : ArrayQueue α cap) (x : α) :
    (q.push x).contents = if q.contents.length < cap then q.contents ++ [x] else q.contents := by
  unfold push
  split_ifs with h h' h'
  · simp only [contents, Vector.toList_set]
    rw [List.take_add_one, List.take_set_of_le (Nat.le_refl _),
      List.getElem?_set_self (by simpa using h)]
    rfl
  · exact absurd h (by simpa using h')
  · exact absurd h' (by simpa using h)
  · rfl

/-! ## Taking -/

/-- The invariant of the loop: the cells below `n - 1` have moved. -/
theorem getElem_shift (cells : Vector α cap) : ∀ (n : ℕ) (h : n ≤ cap) (j : ℕ) (hj : j < cap),
    (shift cells n h)[j] = if hn : j + 1 < n then cells[j + 1] else cells[j]
  | 0, _, j, _ => by simp [shift]
  | 1, _, j, _ => by simp [shift]
  | n + 2, h, j, hj => by
    have ih := getElem_shift cells (n + 1) (by omega)
    simp only [shift, Vector.getElem_set]
    by_cases hjn : n = j
    · subst hjn; rw [if_pos rfl, ih, dif_neg (by omega), dif_pos (by omega)]
    · rw [if_neg hjn, ih j hj]
      split_ifs <;> first | rfl | omega

/-- **Taking is first in, first out.** -/
theorem pop_eq (q : ArrayQueue α cap) :
    q.pop.map (Prod.map id contents) = q.contents.head?.map fun x => (x, q.contents.tail) := by
  unfold pop
  split_ifs with h
  · have hc : q.contents.head? = some q.cells[0] := by
      have h0 : 0 < cap := by omega
      rw [contents, List.head?_eq_getElem?, List.getElem?_take_of_lt h]
      simp [h0]
    rw [hc]
    simp only [Option.map_some, Prod.map, id, Option.some.injEq, Prod.mk.injEq, true_and]
    apply List.ext_getElem
    · simp [contents]; omega
    · intro j h₁ h₂
      have hj : j + 1 < q.count.val := by simp at h₂; omega
      have hcap : j + 1 < cap := by omega
      simp [contents, getElem_shift, hj]
  · have : q.contents = [] := List.eq_nil_of_length_eq_zero (by rw [length_contents]; omega)
    simp [this]

end ArrayQueue
