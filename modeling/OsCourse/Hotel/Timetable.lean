/-
  Whether nobody is forgotten (IDZ4/mutexes): the days of the administrator suffice iff
  there is a timetable that serves the clients in the order in which they come.
-/
import OsCourse.Hotel.Days

namespace Hotel.Days

open Schedule

/-- Every client has been admitted, and has its two lines. -/
structure Served (clients : List Client) (s : State) : Prop where
  admitted : (s.lives.map Guest.client).Perm clients
  checkIns : (s.file.filterMap Line.checkIn?).Perm (clients.map fun c => (c.id, c.during))
  leaves : (s.file.filterMap Line.leave?).Perm (clients.map Client.id)

/-- The order in which the clients push: by their days, in any order within a day. -/
structure Arrivals (clients order : List Client) : Prop where
  perm : order.Perm clients
  sorted : Sorted order

/-- A timetable for `n` days gives the clients rooms in the given order, nobody before it
    has come, and each has left by the end of the last day. -/
abbrev Plan (n : ℕ) (order : List Client) (plan : List (Booking Client)) : Prop :=
  Timetable (fun c => seconds c.checkin) stay roomsCount n order plan

variable {n : ℕ} {order clients : List Client} {plan : List (Booking Client)} {s : State}

/-! ## From the days to a timetable -/

/-- The end of the last day, as that of one more day without a pass. -/
theorem core_after (ha : Arrivals clients order) (n : ℕ) : Core order (n + 1) (arrive order n (after order n)) :=
  (core_days ha.sorted n).begin ha.sorted

/-- When everybody has been admitted, nobody waits. -/
theorem order_of_admitted (ha : Arrivals clients order) (h : ((days order n).lives.map Guest.client).Perm clients) :
    (days order n).lives.map Guest.client = order := by
  have hqueue := (core_days ha.sorted n).queue
  have hsub : (order.filter fun c => seconds c.checkin < n).length ≤ order.length := List.length_filter_le _ _
  have hlen := h.length_eq.trans ha.perm.length_eq.symm
  rw [← hqueue, List.length_append] at hsub
  have hnil : (days order n).waiters = [] := List.length_eq_zero_iff.1 (by omega)
  rw [hnil, List.append_nil] at hqueue
  rw [hqueue]
  exact List.filter_sublist.eq_of_length (by rw [← hqueue]; exact hlen)

/-- When everybody has left, the days of admission are a timetable. -/
theorem plan_of_served (ha : Arrivals clients order) (h : Served clients (after order n)) :
    Plan n order ((after order n).lives.map Guest.booking) := by
  have hcore := core_after ha n
  have horder : (after order n).lives.map Guest.client = order := by
    have hadm := h.admitted
    rw [after, leave_client] at hadm ⊢
    exact order_of_admitted ha hadm
  have hleft : ∀ g ∈ (after order n).lives, g.left = true := by
    have h1 := (h.leaves.symm.trans hcore.leaves).length_eq
    have h2 := h.admitted.length_eq
    rw [List.length_map, List.length_map] at h1
    rw [List.length_map] at h2
    exact List.length_filter_eq_length_iff.1 (h1.symm.trans h2.symm)
  have hend : ∀ g ∈ (after order n).lives, g.curTime + stay g.client ≤ n :=
    fun g hg => Nat.le_of_lt_succ ((hcore.guest g hg).2.2.1 (hleft g hg))
  refine ⟨by rw [List.map_map]; exact horder, ?_, ?_, ?_, fun t => ?_⟩
  · rw [List.pairwise_map]
    exact hcore.sorted
  · intro b hb
    obtain ⟨g, hg, rfl⟩ := List.mem_map.1 hb
    exact (hcore.guest g hg).2.1
  · intro b hb
    obtain ⟨g, hg, rfl⟩ := List.mem_map.1 hb
    exact hend g hg
  · rcases Nat.lt_or_ge t n with ht | ht
    · exact hcore.capacity t (Nat.succ_lt_succ ht)
    · rw [List.countP_eq_zero.2]
      · exact Nat.zero_le _
      · intro b hb
        obtain ⟨g, hg, rfl⟩ := List.mem_map.1 hb
        rw [occupies_iff]
        show ¬ (g.curTime ≤ t ∧ t < g.curTime + stay g.client)
        have := hend g hg
        omega

/-! ## From a timetable to the days -/

/-- Those who are admitted on a day come behind those before. -/
theorem exists_taken (hsorted : Sorted order) (n : ℕ) :
    ∃ taken : List Client, (days order (n + 1)).lives.map Guest.booking =
      (days order n).lives.map Guest.booking ++ taken.map fun c => (c, n) := by
  have hpass : ∀ s : State, 0 ≤ s.roomsNumber → ∃ taken : List Client,
      (serve n s.waiters s).lives.map Guest.booking = s.lives.map Guest.booking ++ taken.map fun c => (c, n) := by
    intro s hfree
    refine ⟨s.waiters.take s.roomsNumber.toNat, ?_⟩
    rw [serve_eq _ hfree, List.map_append, List.map_map]
    rfl
  obtain ⟨taken, htaken⟩ := hpass _ (((core_days hsorted n).begin hsorted).announce n).free
  exact ⟨taken, htaken.trans (congrArg (· ++ _) (leave_booking n (days order n)))⟩

/-- In the order of the days, the first ones are those that have come first. -/
theorem filter_append_ge (hsorted : Sorted order) (n : ℕ) :
    ∃ rest, order = (order.filter fun c => seconds c.checkin < n) ++ rest ∧ ∀ c ∈ rest, n ≤ seconds c.checkin := by
  induction order with
  | nil => exact ⟨[], rfl, fun _ h => absurd h List.not_mem_nil⟩
  | cons c order ih =>
    obtain ⟨hle, hsorted⟩ := List.pairwise_cons.1 hsorted
    by_cases hc : seconds c.checkin < n
    · obtain ⟨rest, heq, hrest⟩ := ih hsorted
      refine ⟨rest, ?_, hrest⟩
      rw [List.filter_cons_of_pos (by simpa using hc), List.cons_append, ← heq]
    · have hge : ∀ c' ∈ c :: order, n ≤ seconds c'.checkin := by
        intro c' hc'
        rcases List.mem_cons.1 hc' with rfl | hc'
        · exact Nat.not_lt.1 hc
        · exact Nat.le_trans (Nat.not_lt.1 hc) (hle c' hc')
      refine ⟨c :: order, ?_, hge⟩
      rw [List.filter_eq_nil_iff.2 fun c' hc' => by simpa using hge c' hc', List.nil_append]

theorem booking_fst (lives : List Guest) : (lives.map Guest.booking).map Prod.fst = lives.map Guest.client := by
  rw [List.map_map]
  rfl

/-- The clients that have been admitted are the first ones. -/
theorem Core.isPrefix (hsorted : Sorted order) (h : Core order n s) :
    (s.lives.map Guest.booking).map Prod.fst <+: order := by
  obtain ⟨rest, heq, -⟩ := filter_append_ge hsorted n
  rw [← h.queue, List.append_assoc] at heq
  rw [booking_fst]
  exact ⟨_, heq.symm⟩

/-- When the queue is empty, the others have not come yet. -/
theorem Core.le_checkin (hsorted : Sorted order) (h : Core order n s) (hnil : s.waiters = []) :
    ∀ c ∈ order.drop s.lives.length, n ≤ seconds c.checkin := by
  obtain ⟨rest, heq, hrest⟩ := filter_append_ge hsorted n
  rw [← h.queue, hnil, List.append_nil] at heq
  rw [heq, ← List.length_map Guest.client, List.drop_left]
  exact hrest

/-- **The days keep ahead of every timetable.** -/
theorem ahead_days {N : ℕ} (ht : Plan N order plan) (hsorted : Sorted order) (n : ℕ) :
    Ahead plan n ((days order n).lives.map Guest.booking) := by
  induction n with
  | zero => exact ahead_zero plan
  | succ n ih =>
    have hcore := core_days hsorted (n + 1)
    obtain ⟨taken, htaken⟩ := exists_taken hsorted n
    refine ht.ahead_succ stay_pos ih taken htaken (hcore.isPrefix hsorted) ?_
    rcases full_days hsorted (n + 1) with hnil | hroom
    · left
      rw [List.length_map]
      exact hcore.le_checkin hsorted hnil
    · right
      have hrooms := hcore.rooms
      rw [hcore.countP_occupies]
      omega

/-- When there is a timetable, everybody is served. -/
theorem served_of_plan (ha : Arrivals clients order) (ht : Plan n order plan) : Served clients (after order n) := by
  have hnot := ht.notLater stay_pos (ahead_days ht ha.sorted n)
  have hcore := core_after ha n
  have hclient : (after order n).lives.map Guest.client = order := by
    rw [after, leave_client, ← booking_fst]
    exact hnot.map_fst.trans ht.order
  have hleft : ∀ g ∈ (after order n).lives, g.left = true := by
    intro g hg
    have hmem : g.booking ∈ (days order n).lives.map Guest.booking := by
      rw [← leave_booking n]
      exact List.mem_map_of_mem hg
    obtain ⟨b, hb, heq, hle⟩ := hnot.exists_of_mem hmem
    have htime := ht.inTime b hb
    rw [← heq] at htime
    refine (hcore.guest g hg).2.2.2 ?_
    simp only [Guest.booking] at htime hle
    omega
  refine ⟨(List.Perm.of_eq hclient).trans ha.perm, ?_, ?_⟩
  · have hlines : (after order n).file.filterMap Line.checkIn? = order.map fun c => (c.id, c.during) := by
      have hmap := congrArg (List.map fun c => (c.id, c.during)) hclient
      rw [List.map_map] at hmap
      exact hcore.checkIns.trans hmap
    rw [hlines]
    exact ha.perm.map _
  · have hlines : ((after order n).file.filterMap Line.leave?).Perm (order.map Client.id) := by
      have hleaves : ((after order n).file.filterMap Line.leave?).Perm
          (((after order n).lives.filter Guest.left).map fun g => g.client.id) := hcore.leaves
      rw [List.filter_eq_self.2 hleft] at hleaves
      have hmap := congrArg (List.map Client.id) hclient
      rw [List.map_map] at hmap
      exact hleaves.trans (List.Perm.of_eq hmap)
    exact hlines.trans (ha.perm.map _)

/-! ## The sixteen days -/

/-- **Nobody is forgotten** iff there is a timetable for the sixteen days, and then the days
    of admission are one. -/
theorem served_iff (ha : Arrivals clients order) :
    Served clients (closed order) ↔ ∃ plan, Plan dayCount order plan :=
  ⟨fun h => ⟨_, plan_of_served ha h⟩, fun ⟨_, ht⟩ => served_of_plan ha ht⟩

/-- 31 clients come on day 1 and stay for two days. -/
def guests : List Client := (List.range 31).map fun (i : ℕ) => { id := i, checkin := 1, during := 2 }

/-- The last of them waits until day 3. -/
theorem served_iff_guests : Served guests (closed guests) := by
  refine (served_iff ⟨List.Perm.refl _, by decide +kernel⟩).2
    ⟨guests.map fun c => (c, if c.id < 30 then 1 else 3), ⟨?_, ?_, ?_, ?_, fun t => ?_⟩⟩
  · rw [List.map_map]
    exact List.map_id guests
  · decide +kernel
  · decide +kernel
  · decide +kernel
  · by_cases ht : t < 5
    · revert t
      decide +kernel
    · refine Nat.le_trans (Nat.le_of_eq (List.countP_eq_zero.2 fun b hb hocc => ?_)) (Nat.zero_le _)
      have hend : ∀ b ∈ guests.map fun c => (c, if c.id < 30 then 1 else 3), b.2 + stay b.1 ≤ 5 := by
        decide +kernel
      have := hend b hb
      have := (occupies_iff.1 hocc).2
      omega

/-- 31 clients come on day 7 and stay for 7 days. -/
def crowd : List Client := (List.range 31).map fun (i : ℕ) => { id := i, checkin := 7, during := 7 }

theorem mem_crowd {c : Client} (hc : c ∈ crowd) : c.checkin = 7 ∧ c.during = 7 := by
  obtain ⟨i, -, rfl⟩ := List.mem_map.1 hc
  exact ⟨rfl, rfl⟩

theorem generated_crowd : Generated crowd := by
  refine ⟨by decide, fun i h => ?_, fun c hc => ?_, fun c hc => ?_⟩
  · simp only [crowd, List.getElem_map, List.getElem_range]
  · rw [(mem_crowd hc).1]
    decide
  · rw [(mem_crowd hc).2]
    decide

/-- The 31st gets its room on day 14, when the others have left, and stays until day 21. -/
theorem not_served : ¬ ∀ clients, Generated clients → ∀ order, Arrivals clients order →
    Served clients (closed order) := by
  intro h
  have hsorted : crowd.Pairwise fun c c' => seconds c.checkin ≤ seconds c'.checkin := by
    refine List.pairwise_of_forall_mem_list fun c hc c' hc' => ?_
    exact Nat.le_of_eq (congrArg seconds ((mem_crowd hc).1.trans (mem_crowd hc').1.symm))
  have hserved := h crowd generated_crowd crowd ⟨List.Perm.refl _, hsorted⟩
  have hlines : ((closed crowd).file.filterMap Line.leave?).length = 30 := by decide +kernel
  have hlength := hserved.leaves.length_eq
  rw [hlines, List.length_map] at hlength
  exact absurd hlength (by decide)

end Hotel.Days
