/-
  A counter of `w` bits that hands out its old value and goes on: what it hands out, and
  how long no value comes twice.
-/
import Mathlib.Algebra.Group.Nat.Defs
import Mathlib.Data.Int.Notation
import Mathlib.Data.List.Nodup
import Mathlib.Data.List.Range

namespace Tickets

variable {w n k : ℕ}

/-- The first `n` values, as signed integers. -/
def tickets (w n : ℕ) : List ℤ := (List.range n).map fun k => (BitVec.ofNat w k).toInt

theorem tickets_succ (w n : ℕ) : tickets w (n + 1) = tickets w n ++ [(BitVec.ofNat w n).toInt] := by
  rw [tickets, List.range_succ, List.map_append]
  rfl

theorem ofNat_succ (w k : ℕ) : BitVec.ofNat w k + 1 = BitVec.ofNat w (k + 1) :=
  (BitVec.ofNat_add k 1).symm

/-- **No value comes twice** before the counter is back at its beginning. -/
theorem nodup_tickets (h : n ≤ 2 ^ w) : (tickets w n).Nodup := by
  refine List.Nodup.map_on (fun j hj k hk heq => ?_) List.nodup_range
  have hj := List.mem_range.1 hj
  have hk := List.mem_range.1 hk
  have heq := congrArg BitVec.toNat (BitVec.eq_of_toInt_eq heq)
  rwa [BitVec.toNat_ofNat, BitVec.toNat_ofNat, Nat.mod_eq_of_lt (Nat.lt_of_lt_of_le hj h),
    Nat.mod_eq_of_lt (Nat.lt_of_lt_of_le hk h)] at heq

/-- The values `vals` have been handed out, and `c` is the next. -/
def Drawn (vals : List ℤ) (c : BitVec w) : Prop :=
  vals = tickets w vals.length ∧ c = BitVec.ofNat w vals.length

theorem drawn_nil : Drawn [] (0 : BitVec w) := ⟨rfl, rfl⟩

theorem Drawn.concat {vals : List ℤ} {c : BitVec w} (h : Drawn vals c) : Drawn (vals ++ [c.toInt]) (c + 1) := by
  obtain ⟨hv, rfl⟩ := h
  rw [Drawn, List.length_append, List.length_singleton, tickets_succ, ← hv, ofNat_succ]
  exact ⟨rfl, rfl⟩

theorem Drawn.nodup {vals : List ℤ} {c : BitVec w} (h : Drawn vals c) (hn : vals.length ≤ 2 ^ w) : vals.Nodup := by
  rw [h.1]
  exact nodup_tickets hn

/-- A signed counter shows how often it has been increased, as long as it is below its
    greatest value. -/
theorem toInt_ofNat (h : 2 * k < 2 ^ w) : (BitVec.ofNat w k).toInt = k := by
  have hk : k % 2 ^ w = k := Nat.mod_eq_of_lt (by omega)
  rw [BitVec.toInt_eq_toNat_of_lt, BitVec.toNat_ofNat, hk]
  rwa [BitVec.toNat_ofNat, hk]

end Tickets
