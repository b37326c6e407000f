/-
  Timetables for jobs that are served in a fixed order by a number of equal places: who
  serves as many as there are places is ahead of every timetable.
-/
import Mathlib.Data.List.Perm.Basic
import Mathlib.Tactic.Common

namespace Schedule

variable {ι : Type*}

/-- A job and the time at which it gets a place. -/
abbrev Booking (ι : Type*) := ι × ℕ

/-- The job has its place at time `t`. -/
def occupies (dur : ι → ℕ) (t : ℕ) (b : Booking ι) : Bool := b.2 ≤ t && t < b.2 + dur b.1

theorem occupies_iff {dur : ι → ℕ} {t : ℕ} {b : Booking ι} :
    occupies dur t b = true ↔ b.2 ≤ t ∧ t < b.2 + dur b.1 := by
  rw [occupies, Bool.and_eq_true, decide_eq_true_eq, decide_eq_true_eq]

/-- A timetable serves the jobs in the given order, none before its release, with `m`
    places, and all are done by time `n`. -/
structure Timetable (release dur : ι → ℕ) (m n : ℕ) (order : List ι) (plan : List (Booking ι)) : Prop where
  order : plan.map Prod.fst = order
  sorted : plan.Pairwise fun b b' => b.2 ≤ b'.2
  released : ∀ b ∈ plan, release b.1 ≤ b.2
  inTime : ∀ b ∈ plan, b.2 + dur b.1 ≤ n
  places : ∀ t, plan.countP (occupies dur t) ≤ m

/-- No job of `l` gets its place later than in `l'`. -/
abbrev NotLater (l l' : List (Booking ι)) : Prop := List.Forall₂ (fun b b' => b.1 = b'.1 ∧ b.2 ≤ b'.2) l l'

variable {release dur : ι → ℕ} {m n N t : ℕ} {order : List ι} {plan l l' : List (Booking ι)}

theorem notLater_of_forall_le (h : ∀ b ∈ l, n ≤ b.2) : NotLater ((l.map Prod.fst).map fun i => (i, n)) l := by
  induction l with
  | nil => exact .nil
  | cons b l ih => exact .cons ⟨rfl, h b List.mem_cons_self⟩ (ih fun b hb => h b (List.mem_cons_of_mem _ hb))

theorem NotLater.map_fst (h : NotLater l l') : l.map Prod.fst = l'.map Prod.fst := by
  induction h with
  | nil => rfl
  | cons hb _ ih => rw [List.map_cons, List.map_cons, hb.1, ih]

theorem NotLater.exists_of_mem (h : NotLater l l') {b : Booking ι} (hb : b ∈ l) :
    ∃ b' ∈ l', b.1 = b'.1 ∧ b.2 ≤ b'.2 := by
  induction h with
  | nil => exact absurd hb List.not_mem_nil
  | @cons b₀ b₀' l l' hhead _ ih =>
    rcases List.mem_cons.1 hb with rfl | hb
    · exact ⟨b₀', List.mem_cons_self, hhead⟩
    · obtain ⟨b', hb', hle⟩ := ih hb
      exact ⟨b', List.mem_cons_of_mem _ hb', hle⟩

/-- Who gets a place no later, and has it at time `t`, has it at that time in the other
    table too, if it has come by then. -/
theorem NotLater.countP_le (h : NotLater l l') (hle : ∀ b ∈ l', b.2 ≤ t) :
    l.countP (occupies dur t) ≤ l'.countP (occupies dur t) := by
  induction h with
  | nil => exact Nat.le_refl _
  | @cons b b' l l' hb _ ih =>
    have ih := ih fun b hb => hle b (List.mem_cons_of_mem _ hb)
    have hb' := hle b' List.mem_cons_self
    rw [List.countP_cons, List.countP_cons]
    by_cases hocc : occupies dur t b = true
    · have hocc' : occupies dur t b' = true := by
        rw [occupies_iff] at hocc ⊢
        rw [← hb.1]
        omega
      rw [if_pos hocc, if_pos hocc']
      exact Nat.succ_le_succ ih
    · rw [if_neg hocc]
      exact Nat.le_add_right_of_le ih

/-- The bookings before time `n` are ahead of the timetable. -/
structure Ahead (plan : List (Booking ι)) (n : ℕ) (l : List (Booking ι)) : Prop where
  early : NotLater l (plan.take l.length)
  late : ∀ b ∈ plan.drop l.length, n ≤ b.2

theorem ahead_zero (plan : List (Booking ι)) : Ahead plan 0 [] := by
  constructor
  · exact .nil
  · exact fun _ _ => Nat.zero_le _

/-- The first jobs of the order that have been served are those of the timetable. -/
theorem Timetable.map_fst_take (ht : Timetable release dur m N order plan) (hfirst : l.map Prod.fst <+: order) :
    (plan.take l.length).map Prod.fst = l.map Prod.fst := by
  rw [List.map_take, ht.order, ← List.length_map Prod.fst, ← List.prefix_iff_eq_take.1 hfirst]

/-- When all places are taken, the next job of the timetable comes later. -/
theorem Timetable.lt_of_full (ht : Timetable release dur m N order plan) (hdur : ∀ i, 0 < dur i)
    (hearly : NotLater l (plan.take l.length)) (hfull : m ≤ l.countP (occupies dur n)) {b : Booking ι}
    {rest : List (Booking ι)} (hb : plan.drop l.length = b :: rest) (hn : n ≤ b.2) : n < b.2 := by
  by_contra hge
  have hb2 : b.2 = n := by omega
  have hsplit : plan = plan.take l.length ++ b :: rest := by rw [← hb, List.take_append_drop]
  have hsorted := ht.sorted
  rw [hsplit, List.pairwise_append] at hsorted
  -- those who have a place, and the next one
  have hcount : l.countP (occupies dur n) ≤ (plan.take l.length).countP (occupies dur n) :=
    hearly.countP_le fun b' hb' => hb2 ▸ hsorted.2.2 b' hb' b List.mem_cons_self
  have hocc : occupies dur n b = true := by
    rw [occupies_iff]
    have := hdur b.1
    omega
  have hplaces := ht.places n
  rw [hsplit, List.countP_append, List.countP_cons_of_pos hocc] at hplaces
  omega

/-- **A round of service keeps ahead** when it goes on in the given order until the next
    job has not been released yet, or all places are taken. -/
theorem Timetable.ahead_succ (ht : Timetable release dur m N order plan) (hdur : ∀ i, 0 < dur i)
    (h : Ahead plan n l) (taken : List ι) (hl : l' = l ++ taken.map fun i => (i, n))
    (hfirst : l'.map Prod.fst <+: order)
    (hround : (∀ i ∈ order.drop l'.length, n < release i) ∨ m ≤ l'.countP (occupies dur n)) :
    Ahead plan (n + 1) l' := by
  have hlen : l'.length = l.length + taken.length := by
    rw [hl, List.length_append, List.length_map]
  have hfst := ht.map_fst_take hfirst
  have hfst' : (plan.take l.length).map Prod.fst = l.map Prod.fst := by
    refine ht.map_fst_take (List.IsPrefix.trans ?_ hfirst)
    rw [hl, List.map_append]
    exact List.prefix_append _ _
  have hearly : NotLater l' (plan.take l'.length) := by
    have hnew := notLater_of_forall_le fun b hb => h.late b (List.mem_of_mem_take (i := taken.length) hb)
    have htaken : ((plan.drop l.length).take taken.length).map Prod.fst = taken := by
      rw [hlen, List.take_add, List.map_append, hfst', hl, List.map_append, List.append_cancel_left_eq,
        List.map_map] at hfst
      exact hfst.trans (List.map_id taken)
    rw [htaken] at hnew
    rw [hlen, List.take_add, hl]
    exact List.rel_append h.early hnew
  have hlate : ∀ b ∈ plan.drop l'.length, n ≤ b.2 := by
    intro b hb
    rw [hlen, ← List.drop_drop] at hb
    exact h.late b (List.mem_of_mem_drop hb)
  refine ⟨hearly, fun b hb => ?_⟩
  rcases hround with hrel | hfull
  · have hmem := List.mem_map_of_mem (f := Prod.fst) hb
    rw [List.map_drop, ht.order] at hmem
    exact Nat.le_trans (hrel b.1 hmem) (ht.released b (List.mem_of_mem_drop hb))
  · cases hdrop : plan.drop l'.length with
    | nil => rw [hdrop] at hb; exact absurd hb List.not_mem_nil
    | cons b₀ rest =>
      have hlt := ht.lt_of_full hdur hearly hfull hdrop (hlate b₀ (hdrop ▸ List.mem_cons_self))
      have hle : b₀.2 ≤ b.2 := by
        have hs := ht.sorted.drop (i := l'.length)
        rw [hdrop] at hs hb
        rcases List.mem_cons.1 hb with rfl | hb
        · exact Nat.le_refl _
        · exact List.rel_of_pairwise_cons hs hb
      exact Nat.le_trans hlt hle

/-- At the end of the timetable all jobs have been served, none later than there. -/
theorem Timetable.notLater (ht : Timetable release dur m n order plan) (hdur : ∀ i, 0 < dur i)
    (h : Ahead plan n l) : NotLater l plan := by
  have hnil : plan.drop l.length = [] := by
    rw [List.eq_nil_iff_forall_not_mem]
    intro b hb
    have h1 := h.late b hb
    have h2 := ht.inTime b (List.mem_of_mem_drop hb)
    have h3 := hdur b.1
    omega
  have hearly := h.early
  rwa [List.take_of_length_le (List.drop_eq_nil_iff.1 hnil)] at hearly

end Schedule
