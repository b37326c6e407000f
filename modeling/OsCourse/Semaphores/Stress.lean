/-
  The class CountingSemaphore of dz9/my-semaphore and its stress test: threads that set the bits
  of a `vector<bool>`, many of them in one word, between `Wait` and `Post`.
-/
import Mathlib.Algebra.BigOperators.Group.Finset.Piecewise
import Mathlib.Algebra.Order.BigOperators.Group.Finset
import Mathlib.Data.Fintype.BigOperators
import Mathlib.Logic.Function.Basic
import OsCourse.Lib.Permit
import OsCourse.Lib.Transition

namespace Semaphores.Stress

open Transition System Permit

/-! ## The semaphore -/

/-- `CountingSemaphore`, which is a `sem_t`. -/
structure CountingSemaphore where
  value : ℕ
  deriving DecidableEq

def CountingSemaphore.post (sem : CountingSemaphore) : CountingSemaphore := { value := sem.value + 1 }

/-- `Wait` blocks while the value is 0. -/
def CountingSemaphore.wait (sem : CountingSemaphore) : Option CountingSemaphore :=
  match sem.value with
  | 0 => none
  | v + 1 => some { value := v }

/-! ## The bit field -/

/-- The words of a `vector<bool>`. -/
abbrev BitField := ℕ → BitVec 64

def BitField.get (field : BitField) (j : ℕ) : Bool := (field (j / 64)).getLsbD (j % 64)

/-- The word of bit `j`, with this bit set. -/
def withBit (w : BitVec 64) (j : ℕ) : BitVec 64 := w ||| BitVec.twoPow 64 (j % 64)

/-- `TARGET_BIT_INDEX(i, threadId)`, where `n` is `NTHREADS` -/
def targetBitIndex (n i threadId : ℕ) : ℕ := i * n + threadId

/-! ## The test -/

/-- Where a worker is; `i` is the number of its iteration. -/
inductive Pc where
  /-- in `while (!start)` -/
  | spinning
  /-- at `sem.Wait()` -/
  | waiting (i : ℕ)
  /-- before the word of the bit is loaded -/
  | loading (i : ℕ)
  /-- before the word is stored, which has been `w` -/
  | storing (i : ℕ) (w : BitVec 64)
  /-- before `sem.Post()` -/
  | posting (i : ℕ)
  | done
  deriving DecidableEq

structure State (n : ℕ) where
  sem : CountingSemaphore
  field : BitField
  start : Bool
  pcs : Fin n → Pc
  /-- what the test counts when all workers are joined -/
  falseBits : Option ℕ

inductive Act (n : ℕ) where
  | main
  | worker (threadId : Fin n)

/-- At the head of the loop. -/
def top (bits i : ℕ) : Pc := if i < bits then .waiting i else .done

def initial (n : ℕ) : State n where
  sem := { value := 1 }
  field := fun _ => 0
  start := false
  pcs := fun _ => .spinning
  falseBits := none

variable {n : ℕ}

/-- A worker; while `start` is false it makes no progress. -/
def stepWorker (bits : ℕ) (s : State n) (t : Fin n) : Option (State n) :=
  match s.pcs t with
  | .spinning => if s.start then some { s with pcs := Function.update s.pcs t (top bits 0) } else none
  | .waiting i => s.sem.wait.map fun sem => { s with sem := sem, pcs := Function.update s.pcs t (.loading i) }
  | .loading i =>
    some { s with pcs := Function.update s.pcs t (.storing i (s.field (targetBitIndex n i t / 64))) }
  | .storing i w =>
    some { s with field := Function.update s.field (targetBitIndex n i t / 64) (withBit w (targetBitIndex n i t))
                  pcs := Function.update s.pcs t (.posting i) }
  | .posting i => some { s with sem := s.sem.post, pcs := Function.update s.pcs t (top bits (i + 1)) }
  | .done => none

/-- `falseBits`, as the loop over the bits counts them. -/
def countFalse (field : BitField) (size : ℕ) : ℕ := (List.range size).countP fun j => !field.get j

/-- The test itself, which starts the workers, joins them, and counts. -/
def stepMain (bits : ℕ) (s : State n) : Option (State n) :=
  if s.start = false then some { s with start := true }
  else if (∀ t, s.pcs t = .done) ∧ s.falseBits = none then
    some { s with falseBits := some (countFalse s.field (bits * n)) }
  else none

def step (bits : ℕ) (s : State n) : Act n → Option (State n)
  | .main => stepMain bits s
  | .worker t => stepWorker bits s t

/-- `n` workers that set `bits` bits each (`NTHREADS` and `BITS_PER_THREAD`). -/
def system (n bits : ℕ) : System (State n) (Act n) := ofFn (initial n) (step bits)

/-! ## No bit is lost -/

/-- The worker is between `Wait` and `Post`. -/
def Pc.Inside : Pc → Prop
  | .loading _ | .storing _ _ | .posting _ => True
  | .spinning | .waiting _ | .done => False

/-- How many bits the worker has set. -/
def Pc.setBits (bits : ℕ) : Pc → ℕ
  | .spinning => 0
  | .waiting i | .loading i | .storing i _ => i
  | .posting i => i + 1
  | .done => bits

/-- The worker is in one of its iterations. -/
def Pc.Within (bits : ℕ) : Pc → Prop
  | .waiting i | .loading i | .storing i _ | .posting i => i < bits
  | .spinning | .done => True

variable {bits : ℕ} {s s' : State n} {t : Fin n} {field : BitField}

theorem get_update (field : BitField) (j k : ℕ) :
    BitField.get (Function.update field (j / 64) (withBit (field (j / 64)) j)) k = (field.get k || decide (k = j)) := by
  unfold BitField.get withBit
  by_cases hword : k / 64 = j / 64
  · rw [hword, Function.update_self, BitVec.getLsbD_or, BitVec.getLsbD_twoPow]
    have hbit : j % 64 = k % 64 ↔ k = j := by omega
    simp [Nat.mod_lt, hbit]
  · rw [Function.update_of_ne hword]
    have hne : k ≠ j := fun h => hword (by rw [h])
    simp [hne]

theorem targetBitIndex_inj {i i' : ℕ} {t t' : Fin n} :
    targetBitIndex n i t = targetBitIndex n i' t' ↔ i = i' ∧ t = t' := by
  have ht := t.isLt
  have ht' := t'.isLt
  constructor
  · intro h
    unfold targetBitIndex at h
    have hmod : (t : ℕ) = t' := by
      have := congrArg (· % n) h
      simpa [Nat.mul_add_mod', Nat.mod_eq_of_lt ht, Nat.mod_eq_of_lt ht'] using this
    refine ⟨?_, Fin.ext hmod⟩
    rw [hmod] at h
    exact Nat.eq_of_mul_eq_mul_right (Nat.zero_lt_of_lt ht) (Nat.add_right_cancel h)
  · rintro ⟨rfl, rfl⟩
    rfl

theorem setBits_top {i : ℕ} (hi : i ≤ bits) : (top bits i).setBits bits = i := by
  unfold top
  split_ifs with h
  · rfl
  · exact Nat.le_antisymm (Nat.le_of_not_lt h) hi

theorem within_top (bits i : ℕ) : (top bits i).Within bits := by
  unfold top
  split_ifs with h
  · exact h
  · trivial

theorem not_inside_top (bits i : ℕ) : ¬ (top bits i).Inside := by
  unfold top
  split_ifs <;> exact id

structure Inv (bits : ℕ) (s : State n) : Prop where
  within : ∀ t, (s.pcs t).Within bits
  exclusive : Exclusive Pc.Inside s.sem.value s.pcs
  word : ∀ t i w, s.pcs t = .storing i w → w = s.field (targetBitIndex n i t / 64)
  bits : ∀ (t : Fin n), ∀ i < bits, s.field.get (targetBitIndex n i t) = true ↔ i < (s.pcs t).setBits bits
  counted : ∀ k, s.falseBits = some k → k = 0

theorem inv_initial (n bits : ℕ) : Inv bits (initial n) where
  within := fun t => trivial
  exclusive := Or.inl ⟨rfl, fun t => id⟩
  word := fun t i w h => by cases h
  bits := by simp [initial, BitField.get, Pc.setBits]
  counted := fun k h => by cases h


/-- A step of a worker that does not touch the bit field. -/
theorem Inv.move (h : Inv bits s) (sem : CountingSemaphore) {pc : Pc} (hwithin : pc.Within bits)
    (hexclusive : Exclusive Pc.Inside sem.value (Function.update s.pcs t pc))
    (hword : ∀ i w, pc = .storing i w → w = s.field (targetBitIndex n i t / 64))
    (hset : pc.setBits bits = (s.pcs t).setBits bits) :
    Inv bits { s with sem := sem, pcs := Function.update s.pcs t pc } where
  within := (Function.forall_update_iff s.pcs fun t p => p.Within bits).2 ⟨hwithin, fun t' _ => h.within t'⟩
  exclusive := hexclusive
  word := (Function.forall_update_iff s.pcs fun t p =>
    ∀ i w, p = .storing i w → w = s.field (targetBitIndex n i t / 64)).2 ⟨hword, fun t' _ => h.word t'⟩
  bits := by
    refine (Function.forall_update_iff s.pcs fun t p =>
      ∀ i < bits, s.field.get (targetBitIndex n i t) = true ↔ i < p.setBits bits).2 ⟨?_, fun t' _ => h.bits t'⟩
    rw [hset]
    exact h.bits t
  counted := h.counted

/-- The word that is stored has not been changed since it was loaded. -/
theorem Inv.store (h : Inv bits s) {i : ℕ} {w : BitVec 64} (hpc : s.pcs t = .storing i w) :
    Inv bits { s with
      field := Function.update s.field (targetBitIndex n i t / 64) (withBit w (targetBitIndex n i t))
      pcs := Function.update s.pcs t (.posting i) } := by
  have hinside : (s.pcs t).Inside := by
    rw [hpc]
    trivial
  have hi : i < bits := by
    have := h.within t
    rwa [hpc] at this
  obtain ⟨-, hnone⟩ | ⟨-, t₀, hone⟩ := h.exclusive
  · exact absurd hinside (hnone t)
  obtain rfl : t = t₀ := (hone t).1 hinside
  obtain rfl := h.word t i w hpc
  refine ⟨?_, h.exclusive.inside hinside trivial, ?_, ?_, h.counted⟩
  · exact (Function.forall_update_iff s.pcs fun t p => p.Within bits).2 ⟨hi, fun t' _ => h.within t'⟩
  · -- nobody else is at a store
    refine (Function.forall_update_iff s.pcs fun t p => ∀ i' w, p = .storing i' w →
      w = Function.update s.field _ _ (targetBitIndex n i' t / 64)).2 ⟨fun i' w hw => (by cases hw), ?_⟩
    intro t' ht' i' w hw
    refine absurd ((hone t').1 ?_) ht'
    rw [hw]
    trivial
  · intro t' i' hi'
    show BitField.get (Function.update s.field _ _) _ = true ↔
      i' < (Function.update s.pcs t (.posting i) t').setBits bits
    rw [get_update, Bool.or_eq_true, decide_eq_true_eq, targetBitIndex_inj, h.bits t' i' hi']
    by_cases ht' : t' = t
    · subst ht'
      rw [Function.update_self, hpc]
      show i' < i ∨ i' = i ∧ t' = t' ↔ i' < i + 1
      rw [Nat.lt_succ_iff_lt_or_eq]
      simp
    · rw [Function.update_of_ne ht']
      simp [ht']

theorem wait_eq_some {sem sem' : CountingSemaphore} (h : sem.wait = some sem') : sem.value = sem'.value + 1 := by
  unfold CountingSemaphore.wait at h
  split at h
  case h_1 => cases h
  case h_2 v hv =>
    cases h
    exact hv

theorem Inv.stepWorker (h : Inv bits s) (hs : stepWorker bits s t = some s') : Inv bits s' := by
  have hwithin := h.within t
  have hexclusive := h.exclusive
  unfold Stress.stepWorker at hs
  split at hs
  case h_1 hpc =>
    split_ifs at hs
    cases hs
    refine h.move _ (within_top bits 0) (hexclusive.outside (by rw [hpc]; exact id) (not_inside_top bits 0)) ?_ ?_
    · intro i w hw
      unfold top at hw
      split_ifs at hw
    · rw [hpc]
      exact setBits_top (Nat.zero_le bits)
  case h_2 i hpc =>
    rw [hpc] at hwithin
    obtain ⟨sem, hsem, rfl⟩ := Option.map_eq_some_iff.1 hs
    rw [wait_eq_some hsem] at hexclusive
    refine h.move _ hwithin (hexclusive.enter trivial) (fun i w hw => by cases hw) ?_
    rw [hpc]
    rfl
  case h_3 i hpc =>
    rw [hpc] at hwithin
    cases hs
    refine h.move s.sem hwithin (hexclusive.inside (by rw [hpc]; trivial) trivial) ?_ ?_
    · intro i w hw
      cases hw
      rfl
    · rw [hpc]
      rfl
  case h_4 i w hpc =>
    cases hs
    exact h.store hpc
  case h_5 i hpc =>
    rw [hpc] at hwithin
    cases hs
    refine h.move _ (within_top bits (i + 1))
      (hexclusive.leave (by rw [hpc]; trivial) (not_inside_top bits (i + 1))) ?_ ?_
    · intro i w hw
      unfold top at hw
      split_ifs at hw
    · rw [hpc]
      exact setBits_top hwithin
  case h_6 => cases hs

/-! ## The end of the test -/

theorem Inv.countFalse_eq (h : Inv bits s) (hdone : ∀ t, s.pcs t = .done) : countFalse s.field (bits * n) = 0 := by
  refine List.countP_eq_zero.2 fun j hj => ?_
  have hj : j < bits * n := List.mem_range.1 hj
  have hn : 0 < n := Nat.pos_of_ne_zero fun h0 => by simp [h0] at hj
  have hi : j / n < bits := Nat.div_lt_of_lt_mul (Nat.mul_comm bits n ▸ hj)
  have hindex : targetBitIndex n (j / n) (⟨j % n, Nat.mod_lt j hn⟩ : Fin n) = j := Nat.div_add_mod' j n
  have hset := (h.bits ⟨j % n, Nat.mod_lt j hn⟩ (j / n) hi).2 (by rw [hdone]; exact hi)
  rw [hindex] at hset
  simp [hset]

theorem Inv.step (h : Inv bits s) {a : Act n} (hs : step bits s a = some s') : Inv bits s' := by
  cases a with
  | worker t => exact h.stepWorker hs
  | main =>
    have hs : stepMain bits s = some s' := hs
    unfold stepMain at hs
    split_ifs at hs with hstart hdone
    · cases hs
      exact ⟨h.within, h.exclusive, h.word, h.bits, h.counted⟩
    · cases hs
      refine ⟨h.within, h.exclusive, h.word, h.bits, fun k hk => ?_⟩
      cases hk
      exact h.countFalse_eq hdone.1

theorem inv_of_reachable (h : (system n bits).Reachable s) : Inv bits s := by
  have hind : (system n bits).Inductive (Inv bits) :=
    ⟨fun s hs => by rw [show s = initial n from hs]; exact inv_initial n bits, fun s a s' hinv hs => hinv.step hs⟩
  exact hind.reachable h

/-- The test cannot get stuck before it has counted. -/
theorem Inv.counted_of_stuck (h : Inv bits s) (hstuck : ∀ a, Stress.step bits s a = none) : s.falseBits = some 0 := by
  have hmain : stepMain bits s = none := hstuck .main
  have hworker : ∀ t, Stress.stepWorker bits s t = none := fun t => hstuck (.worker t)
  unfold stepMain at hmain
  split_ifs at hmain with hstart hdone
  -- nobody is inside, so that the semaphore is free
  have hfree : s.sem.value = 1 := by
    obtain ⟨h1, -⟩ | ⟨-, t, ht⟩ := h.exclusive
    · exact h1
    · have hinside := (ht t).2 rfl
      have hnone := hworker t
      cases hpc : s.pcs t with
      | spinning | waiting _ | done =>
        rw [hpc] at hinside
        exact hinside.elim
      | loading _ | storing _ _ | posting _ => simp [Stress.stepWorker, hpc] at hnone
  -- so that every worker has come to its end
  have hall : ∀ t, s.pcs t = .done := by
    intro t
    have hnone := hworker t
    cases hpc : s.pcs t with
    | done => rfl
    | spinning => simp [Stress.stepWorker, hpc, hstart] at hnone
    | waiting _ => simp [Stress.stepWorker, hpc, CountingSemaphore.wait, hfree] at hnone
    | loading _ | storing _ _ | posting _ => simp [Stress.stepWorker, hpc] at hnone
  cases hcount : s.falseBits with
  | none => exact absurd ⟨hall, hcount⟩ hdone
  | some k => rw [h.counted k hcount]

/-- How many steps of a worker are left. -/
def Pc.left (bits : ℕ) : Pc → ℕ
  | .spinning => 4 * bits + 1
  | .waiting i => 4 * (bits - i)
  | .loading i => 4 * (bits - i) - 1
  | .storing i _ => 4 * (bits - i) - 2
  | .posting i => 4 * (bits - i) - 3
  | .done => 0

/-- How many steps of the test itself are left. -/
def mainLeft (s : State n) : ℕ := (if s.start then 0 else 1) + if s.falseBits.isSome then 0 else 1

theorem left_top {i : ℕ} : (top bits i).left bits = 4 * (bits - i) := by
  unfold top
  split_ifs with h
  · rfl
  · show 0 = 4 * (bits - i)
    omega

/-- Each step of a worker is one of those that were left. -/
theorem left_stepWorker (h : Inv bits s) (hs : stepWorker bits s t = some s') :
    mainLeft s' = mainLeft s ∧ ∃ pc, s'.pcs = Function.update s.pcs t pc ∧ (s.pcs t).left bits = pc.left bits + 1 := by
  have hwithin := h.within t
  unfold stepWorker at hs
  split at hs
  case h_1 hpc =>
    split_ifs at hs
    cases hs
    refine ⟨rfl, _, rfl, ?_⟩
    rw [hpc, left_top]
    rfl
  case h_2 i hpc =>
    rw [hpc] at hwithin ⊢
    have hi : i < bits := hwithin
    obtain ⟨sem, -, rfl⟩ := Option.map_eq_some_iff.1 hs
    refine ⟨rfl, _, rfl, ?_⟩
    show 4 * (bits - i) = 4 * (bits - i) - 1 + 1
    omega
  case h_3 i hpc =>
    rw [hpc] at hwithin ⊢
    have hi : i < bits := hwithin
    cases hs
    refine ⟨rfl, _, rfl, ?_⟩
    show 4 * (bits - i) - 1 = 4 * (bits - i) - 2 + 1
    omega
  case h_4 i w hpc =>
    rw [hpc] at hwithin ⊢
    have hi : i < bits := hwithin
    cases hs
    refine ⟨rfl, _, rfl, ?_⟩
    show 4 * (bits - i) - 2 = 4 * (bits - i) - 3 + 1
    omega
  case h_5 i hpc =>
    rw [hpc] at hwithin ⊢
    have hi : i < bits := hwithin
    cases hs
    refine ⟨rfl, _, rfl, ?_⟩
    rw [left_top]
    show 4 * (bits - i) - 3 = 4 * (bits - (i + 1)) + 1
    omega
  case h_6 => cases hs

/-- How many steps are left. -/
def left (bits : ℕ) (s : State n) : ℕ := mainLeft s + ∑ t, (s.pcs t).left bits

theorem left_step (h : Inv bits s) {a : Act n} (hs : step bits s a = some s') : left bits s = left bits s' + 1 := by
  cases a with
  | worker t =>
    obtain ⟨hmain, pc, hpcs, hleft⟩ := left_stepWorker h hs
    have hsum : ∑ t', (s.pcs t').left bits = ∑ t', (s'.pcs t').left bits + 1 := by
      have hcomp : (fun t' => (s'.pcs t').left bits) =
          Function.update (fun t' => (s.pcs t').left bits) t (pc.left bits) := by
        funext t'
        rw [hpcs]
        by_cases ht : t' = t
        · subst ht
          rw [Function.update_self, Function.update_self]
        · rw [Function.update_of_ne ht, Function.update_of_ne ht]
      have hothers := Finset.add_sum_erase Finset.univ (fun t' => (s.pcs t').left bits) (Finset.mem_univ t)
      rw [hcomp, Finset.sum_update_of_mem (Finset.mem_univ t), Finset.sdiff_singleton_eq_erase, ← hothers, hleft]
      omega
    rw [left, left, hmain, hsum]
    omega
  | main =>
    have hs : stepMain bits s = some s' := hs
    unfold stepMain at hs
    split_ifs at hs with hstart hdone
    · cases hs
      simp [left, mainLeft, hstart]
      omega
    · cases hs
      simp [left, mainLeft, hdone.2]
      omega

/-- **The stress test passes.**  However the workers take turns, a run of the test has at most
    `n (4 bits + 1) + 2` steps, and when it cannot go on all bits are set. -/
theorem stress_passes (n bits : ℕ) {tr : List (State n × Act n)} {s : State n} (h : (system n bits).Exec tr s) :
    tr.length ≤ n * (4 * bits + 1) + 2 ∧ ((∀ a, step bits s a = none) → s.falseBits = some 0) := by
  refine ⟨?_, (inv_of_reachable ⟨tr, h⟩).counted_of_stuck⟩
  have hleft : tr.length + left bits s = n * (4 * bits + 1) + 2 := by
    induction h with
    | init hi =>
      rw [show _ = initial n from hi]
      simp [left, mainLeft, initial, Pc.left]
      omega
    | snoc he hs ih =>
      rw [left_step (inv_of_reachable ⟨_, he⟩) hs] at ih
      rw [List.length_append, List.length_singleton]
      omega
  omega

/-- Two workers that set two bits each, all of them in one word. -/
theorem stress_passes_two : ∃ (tr : List (State 2 × Act 2)) (s : State 2), tr.length ≤ 20 ∧ s.falseBits = some 0 := by
  obtain ⟨s, -, he, hp⟩ := exec_of_any (initial 2) (step 2) [.main, .worker 0, .worker 1, .worker 0, .worker 0,
    .worker 0, .worker 0, .worker 1, .worker 1, .worker 1, .worker 1, .worker 1, .worker 1, .worker 1, .worker 1,
    .worker 0, .worker 0, .worker 0, .worker 0, .main]
    (fun s => (step 2 s .main).isNone && (List.finRange 2).all fun t => (step 2 s (.worker t)).isNone) (by decide)
  obtain ⟨hmain, hworkers⟩ := Bool.and_eq_true_iff.1 hp
  obtain ⟨hlen, hstuck⟩ := stress_passes 2 2 he
  refine ⟨_, s, hlen, hstuck fun a => ?_⟩
  cases a with
  | main => exact Option.isNone_iff_eq_none.1 hmain
  | worker t => exact Option.isNone_iff_eq_none.1 (List.all_eq_true.1 hworkers t (List.mem_finRange t))

end Semaphores.Stress
