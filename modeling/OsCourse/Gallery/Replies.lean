/-
  What the handler sends, and whose connections it reaches.
-/
import OsCourse.Gallery.Dialogue
import OsCourse.Gallery.Wiring

namespace Gallery

/-! ## Who is sent what -/

/-- Without monitors nothing is broadcast. -/
theorem Version.broadcastStatus_eq_nil {w : Version} {s : Server} (h : ∀ i, (s.clients i).isMonitor = false) :
    w.broadcastStatus s = [] :=
  List.filterMap_eq_nil_iff.2 fun i _ => by simp [h i]

/-- The messages after which the handler sends the status line to the monitors. -/
def Server.Announces (s : Server) (i : Slot) : Input → Prop
  | .closed | .monitor => True
  | .ignored | .command _ none _ => False
  | .command _ (some .view) n => ∃ p, painting? n = some p
  | .command _ (some .leavePainting) _ => (s.clients i).currentPainting ≠ -1
  | .command _ (some .enter) _ | .command _ (some .exit) _ => True

namespace Version.Handles
variable {w : Version} {s : Server} {i : Slot} {inp : Input} {x : Reaction}

/-- The handler sends the response, if there is one, and the status line before or
    after it. -/
theorem sends_split (h : w.Handles s i inp x) : ∃ pre post,
    x.sends = pre ++ (if x.response = [] then [] else [((s.clients i).fd, x.response)]) ++ post ∧
      (s.Announces i inp → pre ++ post = w.broadcastStatus x.server) ∧
      (¬ s.Announces i inp → pre ++ post = []) := by
  have hreply : ∀ {s' : Server} {t : Text}, (s'.clients i).fd = (s.clients i).fd → t ≠ [] →
      s.Announces i inp → ∃ pre post,
        (w.reply s' i t).sends = pre ++ (if t = [] then [] else [((s.clients i).fd, t)]) ++ post ∧
          (s.Announces i inp → pre ++ post = w.broadcastStatus s') ∧
          (¬ s.Announces i inp → pre ++ post = []) := by
    intro s' t hfd ht ha
    rw [if_neg ht, reply, hfd]
    split_ifs
    · exact ⟨w.broadcastStatus s', [], (List.append_nil _).symm, fun _ => List.append_nil _, fun hn => absurd ha hn⟩
    · exact ⟨[], w.broadcastStatus s', rfl, fun _ => rfl, fun hn => absurd ha hn⟩
  have hword : ∀ {word nums : Text}, word ≠ [] → word ++ nums ≠ [] :=
    fun hne hnil => hne (List.append_eq_nil_iff.1 hnil).1
  cases h with
  | closed | monitor => exact ⟨[], _, rfl, fun _ => rfl, fun hn => absurd trivial hn⟩
  | ignored | unknown => exact ⟨[], [], rfl, fun ha => ha.elim, fun _ => rfl⟩
  | viewNone hn =>
    refine ⟨[], [], rfl, fun ha => ?_, fun _ => rfl⟩
    obtain ⟨p, hp⟩ := ha
    rw [hn] at hp; cases hp
  | notLeft hp => exact ⟨[], [], rfl, fun ha => absurd hp ha, fun _ => rfl⟩
  | enterOk | enterWait | exit => exact hreply (by simp) (hword (by decide)) trivial
  | viewOk | viewWait => exact hreply (by simp) (hword (by decide)) ⟨_, painting?_eq_some.2 rfl⟩
  | left hp => exact hreply (by simp) (hword (by decide)) hp

/-- Without monitors a reply is the only message. -/
theorem sends_eq (h : w.Handles s i inp x) (hm : ∀ j, (x.server.clients j).isMonitor = false)
    (hr : x.response ≠ []) : x.sends = [((s.clients i).fd, x.response)] := by
  obtain ⟨pre, post, he, ha, hna⟩ := h.sends_split
  have hnil : pre ++ post = [] := by
    by_cases hann : s.Announces i inp
    · rw [ha hann, broadcastStatus_eq_nil hm]
    · exact hna hann
  obtain ⟨rfl, rfl⟩ := List.append_eq_nil_iff.1 hnil
  rw [he, if_neg hr]
  rfl

/-- The response to a call is a reply to it, unless the visitor leaves a painting at
    which it is not. -/
theorem answer {id : ℤ} {k : Call} (h : w.Handles s i (.command id (some k.action) k.number) x)
    (hleave : k.action = .leavePainting → (s.clients i).currentPainting ≠ -1) :
    ∃ stay, Answer id k x.response stay := by
  have henter (hk : k.action = .enter) (hok : Answer id k (Gallery.enterOk id) .hall)
      (hwait : Answer id k (Gallery.enterWait id) .out) : ∃ stay, Answer id k x.response stay := by
    rw [hk] at h
    cases h with
    | enterOk => exact ⟨_, hok⟩
    | enterWait => exact ⟨_, hwait⟩
  cases k with
  | enter => exact henter rfl .enterOk .enterWait
  | reenter => exact henter rfl .reenterOk .reenterWait
  | view p =>
    generalize hn : Call.number (.view p) = n at h
    have hn : (p.val : ℤ) = n := hn
    cases h with
    | @viewOk _ q =>
      obtain rfl : p = q := Fin.ext (by omega)
      exact ⟨_, .viewOk p⟩
    | @viewWait _ q =>
      obtain rfl : p = q := Fin.ext (by omega)
      exact ⟨_, .viewWait p⟩
    | viewNone hnone => rw [painting?_eq_some.2 hn.symm] at hnone; cases hnone
  | leavePainting p =>
    cases h with
    | left => exact ⟨_, .left p⟩
    | notLeft hp => exact absurd hp (hleave rfl)
  | exit => cases h; exact ⟨_, .exit⟩

end Version.Handles

namespace Conn

/-- What reaches the connection. -/
def news (c : Conn) (sends : List (ℤ × Text)) : List Text :=
  sends.filterMap fun m => if c.sock = .accepted m.1 then some m.2 else none

theorem deliver_eq (c : Conn) (sends : List (ℤ × Text)) :
    c.deliver sends = { c with down := c.down ++ c.news sends } := rfl

theorem news_append (c : Conn) (a b : List (ℤ × Text)) : c.news (a ++ b) = c.news a ++ c.news b :=
  List.filterMap_append

/-- The status line reaches the connection iff it is that of a monitor. -/
theorem news_broadcastStatus {w : Version} {c : Conn} {s : Server} : c.news (w.broadcastStatus s) = [] ↔
    ∀ i, s.IsOpen i → (s.clients i).isMonitor = true → c.sock ≠ .accepted (s.clients i).fd := by
  simp only [news, List.filterMap_eq_nil_iff]
  constructor
  · intro h i hi hm hc
    have := h (_, _) (List.mem_filterMap.2 ⟨i, List.mem_finRange i, if_pos ⟨hi, hm⟩⟩)
    rw [if_pos hc] at this
    cases this
  · intro h m hmem
    obtain ⟨i, -, hi⟩ := List.mem_filterMap.1 hmem
    obtain ⟨⟨hopen, hm⟩, hi⟩ := Option.ite_none_right_eq_some.1 hi
    obtain rfl := Option.some.inj hi
    exact if_neg (h i hopen hm)

theorem news_response {c : Conn} {fd : ℤ} {t : Text} : c.news (if t = [] then [] else [(fd, t)]) =
    if c.sock = .accepted fd ∧ t ≠ [] then [t] else [] := by
  by_cases ht : t = []
  · simp [news, ht]
  · by_cases hc : c.sock = .accepted fd <;> simp [news, ht, hc]

/-- What reaches the connection besides the response are status lines. -/
theorem news_of_quiet {w : Version} {s : Server} {i : Slot} {inp : Input} {x : Reaction} {c : Conn}
    (h : w.Handles s i inp x) (hq : s.Announces i inp → c.news (w.broadcastStatus x.server) = []) :
    c.news x.sends = if c.sock = .accepted (s.clients i).fd ∧ x.response ≠ [] then [x.response] else [] := by
  obtain ⟨pre, post, he, ha, hna⟩ := h.sends_split
  have hnil : c.news pre ++ c.news post = [] := by
    rw [← news_append]
    by_cases hann : s.Announces i inp
    · rw [ha hann]; exact hq hann
    · rw [hna hann]; rfl
  obtain ⟨hpre, hpost⟩ := List.append_eq_nil_iff.1 hnil
  rw [he, news_append, news_append, hpre, hpost, List.nil_append, List.append_nil, news_response]

theorem length_news {w : Version} {s : Server} {i : Slot} {inp : Input} {x : Reaction} {c : Conn}
    (h : w.Handles s i inp x) (ha : s.Announces i inp) : (c.news x.sends).length =
      (if c.sock = .accepted (s.clients i).fd ∧ x.response ≠ [] then 1 else 0) +
        (c.news (w.broadcastStatus x.server)).length := by
  obtain ⟨pre, post, he, hann, -⟩ := h.sends_split
  rw [← hann ha, he, news_append, news_append, news_append, news_response]
  simp only [List.length_append]
  split_ifs
  all_goals
    simp only [List.length_singleton, List.length_nil]
    omega

end Conn

/-- The slot of a connection after a message is the one it had before, if it is not
    the one that is closed. -/
theorem Net.Wired.reached {ι κ : Type} [DecidableEq ι] {w : Version} {s : Net ι κ} (h : s.Wired) {u v : ι}
    {i j : Slot} {inp : Input} {x : Reaction} {c : Conn} (hi : s.slot u = some i)
    (hh : w.Handles s.server i inp x) (hc : c.sock = if inp = .closed then .finished else (s.conn u).sock) :
    x.server.IsOpen j ∧ (Function.update s.conn u c v).sock = .accepted (x.server.clients j).fd ↔
      s.slot v = some j ∧ (inp = .closed → v ≠ u) := by
  have hfd := hh.fd_eq j
  constructor
  · rintro ⟨hopen, hv⟩
    split_ifs at hfd with hji
    · exact absurd hfd hopen
    rw [hfd] at hv
    by_cases hvu : v = u
    · subst hvu
      rw [Function.update_self, hc] at hv
      split_ifs at hv with hinp
      exact ⟨h.slot_of hv, fun he => absurd he hinp⟩
    · rw [Function.update_of_ne hvu] at hv
      exact ⟨h.slot_of hv, fun _ => hvu⟩
  · rintro ⟨hj, hinp⟩
    have hv := slot_eq_some hj
    rw [if_neg (fun ⟨hji, hcl⟩ => hinp hcl (h.inj hv (hji ▸ slot_eq_some hi)))] at hfd
    refine ⟨by have := h.slot_isOpen hj; unfold Server.IsOpen at *; rwa [hfd], ?_⟩
    rw [hfd]
    by_cases hvu : v = u
    · subst hvu
      rw [Function.update_self, hc, if_neg (fun hcl => hinp hcl rfl), hv]
    · rw [Function.update_of_ne hvu, hv]

/-- **The status line reaches a connection** iff its slot is marked as that of a
    monitor. -/
theorem Net.Wired.news_broadcastStatus {ι κ : Type} [DecidableEq ι] {w : Version} {s : Net ι κ}
    (h : s.Wired) {u v : ι} {i : Slot} {inp : Input} {x : Reaction} {c : Conn} (hi : s.slot u = some i)
    (hh : w.Handles s.server i inp x) (hc : c.sock = if inp = .closed then .finished else (s.conn u).sock)
    (hm : inp = .monitor → v ≠ u) : (Function.update s.conn u c v).news (w.broadcastStatus x.server) = [] ↔
      ∀ j, s.slot v = some j → (inp = .closed → v ≠ u) → (s.server.clients j).isMonitor = false := by
  rw [Conn.news_broadcastStatus]
  refine forall_congr' fun j => ?_
  have hmark : s.slot v = some j → (x.server.clients j).isMonitor = (s.server.clients j).isMonitor := by
    intro hj
    by_cases hinp : inp = .monitor
    · have hji : j ≠ i := fun he => hm hinp (h.inj (slot_eq_some hj) (he ▸ slot_eq_some hi))
      rw [hh.clients_of_ne hji]
    · exact hh.isMonitor_eq hinp j
  constructor
  · intro hq hj hcl
    obtain ⟨hopen, hv⟩ := (h.reached hi hh hc).2 ⟨hj, hcl⟩
    by_contra hmon
    exact hq hopen (by rw [hmark hj]; simpa using hmon) hv
  · intro hq hopen hmon hv
    obtain ⟨hj, hcl⟩ := (h.reached hi hh hc).1 ⟨hopen, hv⟩
    rw [hmark hj, hq hj hcl] at hmon
    cases hmon

end Gallery
