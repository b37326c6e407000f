/-
  The hotel day by day (IDZ4/mutexes): on each day those whose time is over leave, those
  whose day has come queue up, and the administrator makes one pass over the queue.
-/
import OsCourse.Hotel.Clients
import OsCourse.Lib.Schedule

namespace Hotel.Days

open Schedule

/-- A living client (`live_args`), and whether it has left. -/
structure Guest where
  client : Client
  curTime : ℕ
  left : Bool
  deriving DecidableEq

structure State where
  waiters : List Client
  roomsNumber : ℤ
  /-- the living clients that have been started -/
  lives : List Guest
  file : List Line

def initial : State := { waiters := [], roomsNumber := roomsCount, lives := [], file := [] }

/-- The time of the guest is over on day `t`. -/
def due (t : ℕ) (g : Guest) : Bool := !g.left && g.curTime + seconds g.client.during ≤ t

/-- The guest leaves, if its time is over. -/
def Guest.settle (t : ℕ) (g : Guest) : Guest := { g with left := g.left || due t g }

/-- `Client_live::run` after its sleep, for all whose time is over. -/
def leave (t : ℕ) (s : State) : State :=
  { s with
    roomsNumber := s.roomsNumber + s.lives.countP (due t)
    lives := s.lives.map (Guest.settle t)
    file := s.file ++ (s.lives.filter (due t)).map fun g => .leave g.client.id }

/-- `Client::run` after its sleep, for all whose day it is; `order` is the order in which
    the threads push. -/
def arrive (order : List Client) (t : ℕ) (s : State) : State :=
  { s with waiters := s.waiters ++ order.filter fun c => seconds c.checkin = t }

/-- The loop of `Administration::run` over the queue `waiters`, with the check-in lines of
    those that it starts. -/
def serve (t : ℕ) : List Client → State → State
  | [], s => { s with waiters := [] }
  | c :: waiters, s =>
    if s.roomsNumber > 0 then
      serve t waiters { s with
        roomsNumber := s.roomsNumber - 1
        lives := s.lives ++ [{ client := c, curTime := t, left := false }]
        file := s.file ++ [.checkIn c.id c.during] }
    else { s with waiters := c :: waiters }

/-- The line of the day. -/
def announce (t : ℕ) (s : State) : State := { s with file := s.file ++ [.day t] }

/-- Day `t`. -/
def day (order : List Client) (t : ℕ) (s : State) : State :=
  let s := announce t (arrive order t (leave t s))
  serve t s.waiters s

/-- The first `n` days. -/
def days (order : List Client) : ℕ → State
  | 0 => initial
  | n + 1 => day order n (days order n)

/-- When the administrator has slept behind its last day, of `n`. -/
def after (order : List Client) (n : ℕ) : State := leave n (days order n)

/-- When `main` closes the file; it waits longer for clients that come later, but the
    administrator serves nobody anymore. -/
def closed (order : List Client) : State := after order dayCount

/-- The clients stand in the order of their days. -/
abbrev Sorted (order : List Client) : Prop := order.Pairwise fun c c' => seconds c.checkin ≤ seconds c'.checkin

/-! ## Rooms -/

/-- The nights for which a client has its room: somebody else can have it on the next day
    at the earliest. -/
def stay (c : Client) : ℕ := max 1 (seconds c.during)

theorem stay_pos (c : Client) : 0 < stay c := Nat.lt_of_lt_of_le Nat.one_pos (Nat.le_max_left ..)

/-! ## The phases of a day -/

variable {t n : ℕ} {s : State} {order clients : List Client}

/-- A client that gets a room on day `t`. -/
def Guest.new (t : ℕ) (c : Client) : Guest := { client := c, curTime := t, left := false }

/-- **The pass** serves as many as there are rooms. -/
theorem serve_eq (waiters : List Client) (hrooms : 0 ≤ s.roomsNumber) :
    serve t waiters s =
      { waiters := waiters.drop s.roomsNumber.toNat
        roomsNumber := s.roomsNumber - (waiters.take s.roomsNumber.toNat).length
        lives := s.lives ++ (waiters.take s.roomsNumber.toNat).map (Guest.new t)
        file := s.file ++ (waiters.take s.roomsNumber.toNat).map fun c => .checkIn c.id c.during } := by
  induction waiters generalizing s with
  | nil => simp [serve]
  | cons c waiters ih =>
    rw [serve]
    split_ifs with hpos
    · obtain ⟨k, hk⟩ : ∃ k, s.roomsNumber.toNat = k + 1 := ⟨s.roomsNumber.toNat - 1, by omega⟩
      have hk' : (s.roomsNumber - 1).toNat = k := by omega
      rw [ih (by simp only; omega)]
      simp only [hk', hk, List.take_succ_cons, List.drop_succ_cons, List.map_cons, List.append_assoc,
        List.singleton_append, List.length_cons, Guest.new]
      congr 1
      push_cast; omega
    · have hzero : s.roomsNumber = 0 := by omega
      simp [hzero]

/-- The client and the day on which it gets its room. -/
def Guest.booking (g : Guest) : Booking Client := (g.client, g.curTime)

/-- The invariant, `n` days having begun. -/
structure Core (order : List Client) (n : ℕ) (s : State) : Prop where
  queue : s.lives.map Guest.client ++ s.waiters = order.filter fun c => seconds c.checkin < n
  rooms : s.roomsNumber + s.lives.countP (fun g => !g.left) = roomsCount
  free : 0 ≤ s.roomsNumber
  guest : ∀ g ∈ s.lives, g.curTime < n ∧ seconds g.client.checkin ≤ g.curTime ∧
    (g.left = true ↔ g.curTime + stay g.client < n)
  sorted : s.lives.Pairwise fun g g' => g.curTime ≤ g'.curTime
  capacity : ∀ t, t + 1 < n → (s.lives.map Guest.booking).countP (occupies stay t) ≤ roomsCount
  checkIns : s.file.filterMap Line.checkIn? = s.lives.map fun g => (g.client.id, g.client.during)
  leaves : (s.file.filterMap Line.leave?).Perm ((s.lives.filter Guest.left).map fun g => g.client.id)

/-- The queue is empty, or there is no room. -/
def Full (s : State) : Prop := s.waiters = [] ∨ s.roomsNumber = 0

theorem leave_client (t : ℕ) (s : State) : (leave t s).lives.map Guest.client = s.lives.map Guest.client := by
  simp only [leave, List.map_map]; rfl

theorem leave_booking (t : ℕ) (s : State) : (leave t s).lives.map Guest.booking = s.lives.map Guest.booking := by
  simp only [leave, List.map_map]; rfl

theorem left_of_due {g : Guest} (h : due t g = true) : g.left = false := by
  simp only [due, Bool.and_eq_true, Bool.not_eq_true'] at h
  exact h.1

/-- Who leaves was there. -/
theorem countP_settle (t : ℕ) (lives : List Guest) :
    lives.countP (due t) + (lives.map (Guest.settle t)).countP (fun g => !g.left) =
      lives.countP fun g => !g.left := by
  induction lives with
  | nil => rfl
  | cons g lives ih =>
    rw [List.map_cons, List.countP_cons, List.countP_cons, List.countP_cons]
    cases hd : due t g with
    | true =>
      simp only [Guest.settle, hd, left_of_due hd, Bool.false_or, Bool.not_true, Bool.not_false, Bool.false_eq_true,
        if_true, if_false]
      omega
    | false =>
      simp only [Guest.settle, hd, Bool.or_false, Bool.false_eq_true, if_false]
      omega

/-- Those who have left are those who had left before, and those whose time is over. -/
theorem filter_settle (t : ℕ) (lives : List Guest) :
    (((lives.map (Guest.settle t)).filter Guest.left).map fun g => g.client.id).Perm
      (((lives.filter Guest.left).map fun g => g.client.id) ++ (lives.filter (due t)).map fun g => g.client.id) := by
  induction lives with
  | nil => simp
  | cons g lives ih =>
    cases hd : due t g with
    | true =>
      have hl := left_of_due hd
      simp only [List.map_cons, List.filter_cons, Guest.settle, hd, hl, Bool.or_true, if_true, Bool.false_eq_true,
        if_false]
      exact (List.Perm.cons _ ih).trans List.perm_middle.symm
    | false =>
      cases hl : g.left with
      | true => simpa [List.filter_cons, Guest.settle, hd, hl] using ih
      | false => simpa [List.filter_cons, Guest.settle, hd, hl] using ih

/-- In the order of the days, those of day `n` come behind those of the days before. -/
theorem filter_lt_succ (hsorted : Sorted order) (n : ℕ) :
    order.filter (fun c => seconds c.checkin < n + 1) =
      order.filter (fun c => seconds c.checkin < n) ++ order.filter fun c => seconds c.checkin = n := by
  induction order with
  | nil => rfl
  | cons c order ih =>
    obtain ⟨hle, hsorted⟩ := List.pairwise_cons.1 hsorted
    have ih := ih hsorted
    rcases Nat.lt_trichotomy (seconds c.checkin) n with hc | hc | hc
    · rw [List.filter_cons_of_pos (by simpa using Nat.lt_succ_of_lt hc), List.filter_cons_of_pos (by simpa using hc),
        List.filter_cons_of_neg (by simpa using Nat.ne_of_lt hc), ih, List.cons_append]
    · have hnil : order.filter (fun c => seconds c.checkin < n) = [] := by
        rw [List.filter_eq_nil_iff]
        intro c' hc'
        have := hle c' hc'
        simp only [decide_eq_true_eq]; omega
      rw [List.filter_cons_of_pos (by simp only [decide_eq_true_eq]; omega),
        List.filter_cons_of_neg (by simp only [decide_eq_true_eq]; omega),
        List.filter_cons_of_pos (by simpa using hc), ih, hnil, List.nil_append, List.nil_append]
    · rw [List.filter_cons_of_neg (by simp only [decide_eq_true_eq]; omega),
        List.filter_cons_of_neg (by simp only [decide_eq_true_eq]; omega),
        List.filter_cons_of_neg (by simp only [decide_eq_true_eq]; omega), ih]

/-- Those who have not left are those who occupy a room. -/
theorem Core.countP_occupies (h : Core order (n + 1) s) :
    (s.lives.map Guest.booking).countP (occupies stay n) = s.lives.countP fun g => !g.left := by
  rw [List.countP_map]
  refine List.countP_congr fun g hg => ?_
  obtain ⟨hlt, -, hleft⟩ := h.guest g hg
  rw [Function.comp_apply, occupies_iff, Bool.not_eq_true', ← Bool.not_eq_true, hleft]
  show g.curTime ≤ n ∧ n < g.curTime + stay g.client ↔ _
  omega

theorem Core.capacity_succ (h : Core order n s) (ht : t < n) :
    (s.lives.map Guest.booking).countP (occupies stay t) ≤ roomsCount := by
  rcases Nat.lt_or_ge (t + 1) n with hlt | hge
  · exact h.capacity t hlt
  · obtain rfl : n = t + 1 := by omega
    have h1 := h.rooms
    have h2 := h.free
    rw [h.countP_occupies]
    omega

/-- The leaves and the arrivals of a day. -/
theorem Core.begin (h : Core order n s)
    (hsorted : Sorted order) :
    Core order (n + 1) (arrive order n (leave n s)) := by
  refine ⟨?_, ?_, ?_, ?_, ?_, ?_, ?_, ?_⟩
  · show (leave n s).lives.map Guest.client ++ (s.waiters ++ _) = _
    rw [leave_client, ← List.append_assoc, h.queue, filter_lt_succ hsorted]
  · have h1 := h.rooms
    have h2 := countP_settle n s.lives
    show s.roomsNumber + (s.lives.countP (due n) : ℕ) + _ = _
    simp only [arrive, leave]
    omega
  · have := h.free
    show 0 ≤ s.roomsNumber + (s.lives.countP (due n) : ℕ)
    omega
  · intro g' hg'
    obtain ⟨g, hg, rfl⟩ := List.mem_map.1 (show g' ∈ s.lives.map (Guest.settle n) from hg')
    obtain ⟨hlt, harr, hleft⟩ := h.guest g hg
    refine ⟨Nat.lt_succ_of_lt hlt, harr, ?_⟩
    simp only [Guest.settle, due, Bool.or_eq_true, Bool.and_eq_true, Bool.not_eq_true', decide_eq_true_eq]
    rw [← Bool.not_eq_true, hleft, stay]
    omega
  · show (s.lives.map (Guest.settle n)).Pairwise _
    rw [List.pairwise_map]
    exact h.sorted
  · intro t ht
    show ((leave n s).lives.map Guest.booking).countP (occupies stay t) ≤ _
    rw [leave_booking]
    exact h.capacity_succ (by omega)
  · show (s.file ++ _).filterMap Line.checkIn? = (s.lives.map (Guest.settle n)).map _
    have hnil : ((s.lives.filter (due n)).map fun g => Line.leave g.client.id).filterMap Line.checkIn? = [] := by
      rw [List.filterMap_map]
      exact List.filterMap_eq_nil_iff.2 fun _ _ => rfl
    rw [List.filterMap_append, hnil, List.append_nil, h.checkIns, List.map_map]
    rfl
  · show ((s.file ++ _).filterMap Line.leave?).Perm (((s.lives.map (Guest.settle n)).filter Guest.left).map _)
    have heq : ((s.lives.filter (due n)).map fun g => Line.leave g.client.id).filterMap Line.leave? =
        (s.lives.filter (due n)).map fun g => g.client.id := by
      rw [List.filterMap_map]
      exact congrFun List.filterMap_eq_map' _
    rw [List.filterMap_append, heq]
    exact (h.leaves.append_right _).trans (filter_settle n s.lives).symm

theorem new_client (n : ℕ) (l : List Client) : (l.map (Guest.new n)).map Guest.client = l := by
  rw [List.map_map]
  exact List.map_id l

theorem countP_new (n : ℕ) (l : List Client) : (l.map (Guest.new n)).countP (fun g => !g.left) = l.length := by
  rw [List.countP_map]
  exact List.countP_eq_length.2 fun _ _ => rfl

/-- Those who come on day `n` occupy no room before. -/
theorem countP_new_occupies (ht : t < n) (l : List Client) :
    ((l.map (Guest.new n)).map Guest.booking).countP (occupies stay t) = 0 := by
  rw [List.map_map, List.countP_map, List.countP_eq_zero]
  intro c _
  rw [Function.comp_apply, occupies_iff]
  show ¬ (n ≤ t ∧ _)
  omega

theorem Core.announce (h : Core order n s) (t : ℕ) : Core order n (announce t s) := by
  refine ⟨h.queue, h.rooms, h.free, h.guest, h.sorted, h.capacity, ?_, ?_⟩
  · show (s.file ++ [Line.day t]).filterMap Line.checkIn? = _
    rw [List.filterMap_append, h.checkIns]
    exact List.append_nil _
  · show ((s.file ++ [Line.day t]).filterMap Line.leave?).Perm _
    rw [List.filterMap_append]
    exact (List.append_nil (s.file.filterMap Line.leave?)).symm ▸ h.leaves

/-- The pass of a day. -/
theorem Core.pass (h : Core order (n + 1) s) : Core order (n + 1) (serve n s.waiters s) := by
  rw [serve_eq _ h.free]
  have hfree := h.free
  have hlen : (s.waiters.take s.roomsNumber.toNat).length ≤ s.roomsNumber.toNat := List.length_take_le _ _
  refine ⟨?_, ?_, ?_, ?_, ?_, ?_, ?_, ?_⟩
  · simp only [List.map_append, new_client, List.append_assoc, List.take_append_drop]
    exact h.queue
  · have := h.rooms
    simp only [List.countP_append, countP_new]
    rw [Int.natCast_add]
    omega
  · simp only
    omega
  · intro g hg
    rcases List.mem_append.1 hg with hg | hg
    · exact h.guest g hg
    · obtain ⟨c, hc, rfl⟩ := List.mem_map.1 hg
      have hmem : c ∈ order.filter fun c => seconds c.checkin < n + 1 := by
        rw [← h.queue]
        exact List.mem_append_right _ (List.mem_of_mem_take hc)
      have harr : seconds c.checkin < n + 1 := by simpa using (List.mem_filter.1 hmem).2
      refine ⟨Nat.lt_succ_self n, Nat.le_of_lt_succ harr, ?_⟩
      show false = true ↔ n + stay c < n + 1
      have := stay_pos c
      simp only [Bool.false_eq_true, false_iff]
      omega
  · simp only
    rw [List.pairwise_append]
    refine ⟨h.sorted, ?_, fun g hg g' hg' => ?_⟩
    · rw [List.pairwise_map]
      exact List.pairwise_of_forall fun _ _ => Nat.le_refl n
    · obtain ⟨c, -, rfl⟩ := List.mem_map.1 hg'
      exact Nat.le_of_lt_succ (h.guest g hg).1
  · intro t ht
    have := h.capacity t ht
    simp only [List.map_append, List.countP_append]
    rw [countP_new_occupies (by omega)]
    exact this
  · have hnew : ((s.waiters.take s.roomsNumber.toNat).map fun c => Line.checkIn c.id c.during).filterMap
        Line.checkIn? = (s.waiters.take s.roomsNumber.toNat).map fun c => (c.id, c.during) := by
      rw [List.filterMap_map]
      exact congrFun List.filterMap_eq_map' _
    simp only [List.filterMap_append, hnew, h.checkIns, List.map_append, List.map_map]
    rfl
  · have hnew : ((s.waiters.take s.roomsNumber.toNat).map fun c => Line.checkIn c.id c.during).filterMap
        Line.leave? = [] := by
      rw [List.filterMap_map]
      exact List.filterMap_eq_nil_iff.2 fun _ _ => rfl
    have hleft : ((s.waiters.take s.roomsNumber.toNat).map (Guest.new n)).filter Guest.left = [] := by
      rw [List.filter_eq_nil_iff]
      intro g hg
      obtain ⟨c, -, rfl⟩ := List.mem_map.1 hg
      simp [Guest.new]
    simp only [List.filterMap_append, hnew, List.filter_append, hleft, List.append_nil]
    exact h.leaves

theorem full_serve (hfree : 0 ≤ s.roomsNumber) (waiters : List Client) : Full (serve n waiters s) := by
  rw [serve_eq _ hfree]
  rcases Nat.le_total waiters.length s.roomsNumber.toNat with hle | hge
  · exact .inl (List.drop_eq_nil_iff.2 hle)
  · right
    simp only [List.length_take, Nat.min_eq_left hge]
    omega

theorem core_initial (order : List Client) : Core order 0 initial := by
  refine ⟨?_, rfl, by decide, ?_, List.Pairwise.nil, ?_, rfl, List.Perm.refl _⟩
  · exact (List.filter_eq_nil_iff.2 fun c _ => by simp).symm
  · exact fun g hg => absurd hg List.not_mem_nil
  · exact fun t ht => absurd ht (Nat.not_lt_zero _)

/-- **The invariant of the days.** -/
theorem core_days (hsorted : Sorted order) (n : ℕ) :
    Core order n (days order n) := by
  induction n with
  | zero => exact core_initial order
  | succ n ih => exact ((ih.begin hsorted).announce n).pass

theorem full_days (hsorted : Sorted order) (n : ℕ) :
    Full (days order n) := by
  cases n with
  | zero => exact .inl rfl
  | succ n => exact full_serve (((core_days hsorted n).begin hsorted).announce n).free _

end Hotel.Days
