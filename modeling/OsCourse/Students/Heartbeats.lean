/-
  The heartbeats of the student server (idz os 4/9): a logger that answers each `PING` stays
  in the table.
-/
import OsCourse.Lib.Observer
import OsCourse.Students.Table

namespace Students.V9

open Text Transition System

variable {t : Table} {a : Address} {l : Logger} {d : Desk} {op : Op} {now start : ℕ} {fails : ℕ → Bool}

/-! ## What a call does to the entries -/

/-- The handling of a `PONG` from the address. -/
def pongs (a : Address) : Op → Bool
  | .command cmd b _ => b = a && "PONG".toList.isPrefixOf cmd
  | _ => false

/-- An `UNREGISTER` from the address. -/
def unregisters (a : Address) : Op → Bool
  | .command cmd b _ => b = a && "UNREGISTER".toList.isPrefixOf cmd
  | _ => false

/-- A call of `check_heartbeats`. -/
def checks : Op → Bool
  | .checkHeartbeats _ => true
  | _ => false

/-- The call passes the test for `HEARTBEAT_INTERVAL`. -/
def passes (d : Desk) : Op → Bool
  | .checkHeartbeats _ => d.now - d.lastCheck ≥ heartbeatInterval
  | _ => false

/-- `check_heartbeats` sends a `PING` to the address. -/
def pings (a : Address) (d : Desk) (op : Op) : Bool :=
  match op with
  | .checkHeartbeats _ => (d.apply op).2.any fun x => x.addr == a
  | _ => false

/-- The command is one of those that begin with `name`. -/
theorem head?_of_isPrefixOf {name cmd : Text} (hne : name ≠ []) (h : name.isPrefixOf cmd = true) :
    cmd.head? = name.head? := by
  obtain ⟨rest, rfl⟩ := List.isPrefixOf_iff_prefix.1 h
  exact List.head?_append_of_ne_nil _ hne

/-- No command is two of them. -/
theorem isPrefixOf_eq_false {name name' cmd : Text} (h : name.isPrefixOf cmd = true) (hne : name ≠ [])
    (hne' : name' ≠ []) (hhead : name.head? ≠ name'.head?) : name'.isPrefixOf cmd = false := by
  by_contra h'
  rw [Bool.not_eq_false] at h'
  exact hhead ((head?_of_isPrefixOf hne h).symm.trans (head?_of_isPrefixOf hne' h'))

theorem mem_register (h : l ∈ register now t a) : l.lastActive = now ∨ l ∈ t := by
  rw [register] at h
  split_ifs at h with hfull hmem
  · exact Or.inr h
  · obtain ⟨l', hl', rfl⟩ := mem_modifyAt.1 h
    split_ifs
    · exact Or.inl rfl
    · exact Or.inr hl'
  · rcases List.mem_append.1 h with h | h
    · exact Or.inr h
    · exact Or.inl (by rw [List.mem_singleton.1 h])

theorem Registered.register (h : Registered t a) (now : ℕ) (b : Address) : Registered (register now t b) a := by
  obtain ⟨l, hl, haddr, hactive⟩ := h
  rw [Students.register]
  split_ifs
  · exact ⟨l, hl, haddr, hactive⟩
  · refine ⟨_, mem_modifyAt.2 ⟨l, hl, rfl⟩, ?_, ?_⟩
    · split_ifs <;> exact haddr
    · split_ifs
      · rfl
      · exact hactive
  · exact ⟨l, List.mem_append_left _ hl, haddr, hactive⟩

variable {g : ℕ → Logger → Logger × List Send} {i : ℕ}

theorem mem_mapIdx_fst (h : l ∈ (t.mapIdx g).map Prod.fst) : ∃ i l', t[i]? = some l' ∧ (g i l').1 = l := by
  obtain ⟨r, hr, rfl⟩ := List.mem_map.1 h
  obtain ⟨i, hi, rfl⟩ := List.mem_mapIdx.1 hr
  exact ⟨i, t[i], List.getElem?_eq_getElem hi, rfl⟩

/-- What the round for entry `i` leaves and sends is among what the loop leaves and sends. -/
theorem mem_mapIdx_of_getElem? (h : t[i]? = some l) :
    (g i l).1 ∈ (t.mapIdx g).map Prod.fst ∧ ∀ x ∈ (g i l).2, x ∈ ((t.mapIdx g).map Prod.snd).flatten := by
  obtain ⟨hi, rfl⟩ := List.getElem?_eq_some_iff.1 h
  have hmem : g i t[i] ∈ t.mapIdx g := List.mem_mapIdx.2 ⟨i, hi, rfl⟩
  exact ⟨List.mem_map_of_mem hmem, fun x hx => List.mem_flatten.2 ⟨_, List.mem_map_of_mem hmem, hx⟩⟩

/-- Where an active entry comes from: it is new or refreshed, or it was active before. -/
theorem mem_apply (hnd : (addrs d.loggers).Nodup) (h : l ∈ (d.apply op).1.loggers) (hactive : l.active = true) :
    l.lastActive = d.now ∨ pongs l.addr op = false ∧
      ∃ l' ∈ d.loggers, l'.addr = l.addr ∧ l'.active = true ∧ l'.lastActive = l.lastActive := by
  cases op with
  | tick => exact Or.inr ⟨rfl, l, h, rfl, hactive, rfl⟩
  | addLogger ip port =>
    rw [Desk.apply, addLogger_eq hnd] at h
    have hl : l.lastActive = d.now ∨ l ∈ d.loggers := by
      cases hip : inetPton ip with
      | none =>
        rw [hip] at h
        exact Or.inr h
      | some x =>
        rw [hip] at h
        exact mem_register h
    exact hl.imp_right fun hl => ⟨rfl, l, hl, rfl, hactive, rfl⟩
  | command cmd b failed =>
    simp only [Desk.apply, handleLoggerCommand_eq hnd] at h
    split_ifs at h with hregister hunregister hpong
    · refine (mem_register h).imp_right fun hl => ⟨?_, l, hl, rfl, hactive, rfl⟩
      rw [pongs, isPrefixOf_eq_false hregister (by decide) (by decide) (by decide), Bool.and_false]
    · obtain ⟨l', hl', rfl⟩ := mem_modifyAt.1 h
      split_ifs at hactive ⊢ with heq
      refine Or.inr ⟨?_, l', hl', rfl, hactive, rfl⟩
      rw [pongs, isPrefixOf_eq_false hunregister (by decide) (by decide) (by decide), Bool.and_false]
    · obtain ⟨l', hl', rfl⟩ := mem_modifyAt.1 h
      split_ifs at hactive ⊢ with heq
      · exact Or.inl rfl
      · exact Or.inr ⟨by simp [pongs, Ne.symm heq], l', hl', rfl, hactive, rfl⟩
    · exact Or.inr ⟨by rw [pongs, Bool.eq_false_iff.2 hpong, Bool.and_false], l, h, rfl, hactive, rfl⟩
  | checkHeartbeats fails =>
    simp only [Desk.apply, V9.checkHeartbeats] at h
    split_ifs at h
    · obtain ⟨i, l', hl', rfl⟩ := mem_mapIdx_fst h
      refine Or.inr ⟨rfl, l', List.mem_of_getElem? hl', (addr_heartbeat _ _ l').symm, ?_⟩
      rw [heartbeat] at hactive ⊢
      split_ifs at hactive ⊢ with hbefore
      · exact ⟨hbefore, rfl⟩
      · exact absurd hactive hbefore
    · exact Or.inr ⟨rfl, l, h, rfl, hactive, rfl⟩
  | sendToLoggers fails msg =>
    obtain ⟨i, l', hl', rfl⟩ := mem_mapIdx_fst h
    split_ifs at hactive ⊢ with hbefore
    · exact Or.inr ⟨rfl, l', List.mem_of_getElem? hl', rfl, hbefore, rfl⟩
    · exact absurd hactive hbefore

/-- A registered logger stays when it does not leave, can be reached, and is not timed out. -/
theorem Registered.apply (h : Registered d.loggers a) (hnd : (addrs d.loggers).Nodup) (hstay : unregisters a op = false)
    (hreach : ∀ x ∈ (d.apply op).2, x.addr = a → x.ok = true)
    (htime : passes d op = true →
      ∀ l ∈ d.loggers, l.addr = a → l.active = true → d.now - l.lastActive < loggerTimeout) :
    Registered (d.apply op).1.loggers a := by
  cases op with
  | tick => exact h
  | addLogger ip port =>
    rw [Desk.apply, addLogger_eq hnd]
    cases inetPton ip with
    | none => exact h
    | some x => exact h.register d.now _
  | command cmd b failed =>
    simp only [Desk.apply, handleLoggerCommand_eq hnd]
    split_ifs with hregister hunregister hpong
    · exact h.register d.now b
    · obtain ⟨l, hl, rfl, hactive⟩ := h
      have hne : l.addr ≠ b := by
        rintro rfl
        rw [unregisters, hunregister, Bool.and_true] at hstay
        simp at hstay
      exact ⟨l, mem_modifyAt.2 ⟨l, hl, if_neg hne⟩, rfl, hactive⟩
    · obtain ⟨l, hl, haddr, hactive⟩ := h
      refine ⟨_, mem_modifyAt.2 ⟨l, hl, rfl⟩, ?_, ?_⟩
      · split_ifs <;> exact haddr
      · split_ifs <;> exact hactive
    · exact h
  | checkHeartbeats fails =>
    simp only [Desk.apply, V9.checkHeartbeats] at hreach ⊢
    split_ifs at hreach ⊢ with hpass
    · obtain ⟨l, hl, rfl, hactive⟩ := h
      have hlt := htime (decide_eq_true hpass) l hl rfl hactive
      obtain ⟨i, hi⟩ := List.mem_iff_getElem?.1 hl
      have hround : heartbeat d.now (fails i) l =
          ({ l with active := !fails i }, [{ addr := l.addr, msg := "PING".toList, ok := !fails i }]) := by
        rw [heartbeat, if_pos hactive, if_neg (Nat.not_le.2 hlt)]
      obtain ⟨hmem, hsent⟩ := mem_mapIdx_of_getElem? (g := fun i l => heartbeat d.now (fails i) l) hi
      rw [hround] at hmem hsent
      exact ⟨_, hmem, rfl, hreach _ (hsent _ List.mem_cons_self) rfl⟩
    · exact h
  | sendToLoggers fails msg =>
    obtain ⟨l, hl, rfl, hactive⟩ := h
    obtain ⟨i, hi⟩ := List.mem_iff_getElem?.1 hl
    obtain ⟨hmem, hsent⟩ := mem_mapIdx_of_getElem? (g := fun i l =>
      if l.active then ({ l with active := !fails i }, [{ addr := l.addr, msg := msg, ok := !fails i }])
      else (l, [])) hi
    rw [if_pos hactive] at hmem hsent
    exact ⟨_, hmem, rfl, hreach _ (hsent _ List.mem_cons_self) rfl⟩

/-- Who is active after the check has been sent a `PING`. -/
theorem pings_of_registered (hpass : passes d op = true) (h : Registered (d.apply op).1.loggers a) :
    pings a d op = true := by
  cases op with
  | checkHeartbeats fails =>
    obtain ⟨l, hl, rfl, hactive⟩ := h
    rw [passes, decide_eq_true_iff] at hpass
    simp only [pings, Desk.apply, V9.checkHeartbeats, if_pos hpass] at hl ⊢
    obtain ⟨i, l', hl', rfl⟩ := mem_mapIdx_fst hl
    obtain ⟨-, hsent⟩ := mem_mapIdx_of_getElem? (g := fun i l => heartbeat d.now (fails i) l) hl'
    rw [List.any_eq_true]
    rw [heartbeat] at hactive hsent ⊢
    split_ifs at hactive hsent ⊢ with hbefore htime
    · exact ⟨_, hsent _ List.mem_cons_self, beq_self_eq_true _⟩
    · exact absurd hactive hbefore
  | tick | addLogger ip port | command cmd b failed | sendToLoggers fails msg => cases hpass

/-! ## Regular runs -/

/-- What is remembered of a run: when `check_heartbeats` was called last, or the start, and
    whether there is a `PING` to the address whose `PONG` has not been handled. -/
structure Watch where
  lastCall : ℕ
  waiting : Bool

def watch (a : Address) (w : Watch) (x : Desk × Op) : Watch where
  lastCall := if checks x.2 then x.1.now else w.lastCall
  waiting := if pongs a x.2 then false else w.waiting || pings a x.1 x.2

/-- The calls are at most 29 s apart, the logger does not leave, it can be reached, and its
    `PONG` is handled before the next call that passes the test. -/
structure Regular (a : Address) (w : Watch) (x : Desk × Op) : Prop where
  calls : checks x.2 = true → x.1.now ≤ w.lastCall + 29
  stays : unregisters a x.2 = false
  reached : ∀ d ∈ (x.1.apply x.2).2, d.addr = a → d.ok = true
  answered : passes x.1 x.2 = true → w.waiting = false

instance (a : Address) (w : Watch) (x : Desk × Op) : Decidable (Regular a w x) :=
  decidable_of_iff ((checks x.2 = true → x.1.now ≤ w.lastCall + 29) ∧ unregisters a x.2 = false ∧
      (∀ d ∈ (x.1.apply x.2).2, d.addr = a → d.ok = true) ∧ (passes x.1 x.2 = true → w.waiting = false))
    ⟨fun ⟨calls, stays, reached, answered⟩ => ⟨calls, stays, reached, answered⟩,
      fun h => ⟨h.calls, h.stays, h.reached, h.answered⟩⟩

/-- An active logger that owes no `PONG` has been heard of since the last check that passed
    the test. -/
structure Alive (start : ℕ) (a : Address) (w : Watch) (d : Desk) : Prop where
  distinct : Distinct d.loggers
  start_le : start ≤ d.now
  check_le : d.lastCheck ≤ d.now
  call_lt : w.lastCall < max start d.lastCheck + heartbeatInterval
  heard : w.waiting = false → ∀ l ∈ d.loggers, l.addr = a → l.active = true → max start d.lastCheck ≤ l.lastActive

variable {w : Watch}

theorem alive_initial (start : ℕ) (a : Address) : Alive start a ⟨start, false⟩ (Desk.initial start) where
  distinct := ⟨Nat.zero_le maxLoggers, List.nodup_nil⟩
  start_le := Nat.le_refl start
  check_le := Nat.zero_le start
  call_lt := Nat.lt_add_of_pos_right (by decide) |>.trans_le (Nat.add_le_add_right (Nat.le_max_left start 0) _)
  heard _ l hl := absurd hl List.not_mem_nil

/-- A logger is not timed out: the check comes less than 60 s after it has been heard of. -/
theorem Alive.not_timeout (h : Alive start a w d) (hx : Regular a w (d, op)) (hpass : passes d op = true)
    (hl : l ∈ d.loggers) (haddr : l.addr = a) (hactive : l.active = true) : d.now - l.lastActive < loggerTimeout := by
  have hheard := h.heard (hx.answered hpass) l hl haddr hactive
  have hcall := h.call_lt
  cases op with
  | checkHeartbeats fails =>
    have hnow : d.now ≤ w.lastCall + 29 := hx.calls rfl
    simp only [heartbeatInterval, loggerTimeout] at hcall ⊢
    omega
  | tick | addLogger ip port | command cmd b failed | sendToLoggers fails msg => cases hpass

theorem lastCheck_apply : (d.apply op).1.lastCheck = if passes d op then d.now else d.lastCheck := by
  cases op with
  | checkHeartbeats fails =>
    simp only [Desk.apply, V9.checkHeartbeats, passes, decide_eq_true_iff]
    split_ifs <;> rfl
  | tick | addLogger ip port | command cmd b failed | sendToLoggers fails msg => rfl

theorem now_le_apply : d.now ≤ (d.apply op).1.now := by
  cases op with
  | tick => exact Nat.le_succ d.now
  | checkHeartbeats fails | addLogger ip port | command cmd b failed | sendToLoggers fails msg =>
    exact Nat.le_refl d.now

theorem Alive.step (h : Alive start a w d) : Alive start a (watch a w (d, op)) (d.apply op).1 := by
  have hcheck : (d.apply op).1.lastCheck ≤ d.now := by
    rw [lastCheck_apply]
    split_ifs
    · exact Nat.le_refl d.now
    · exact h.check_le
  refine ⟨h.distinct.apply op, h.start_le.trans now_le_apply, hcheck.trans now_le_apply, ?_, ?_⟩
  · rw [lastCheck_apply]
    cases op with
    | checkHeartbeats fails =>
      simp only [watch, checks, if_true, passes, decide_eq_true_iff]
      split_ifs with hpass
      · exact Nat.lt_of_lt_of_le (Nat.lt_add_of_pos_right (by decide)) (Nat.add_le_add_right (Nat.le_max_right _ _) _)
      · have := Nat.le_max_right start d.lastCheck
        omega
    | tick | addLogger ip port | command cmd b failed | sendToLoggers fails msg => exact h.call_lt
  · intro hwaiting l hl haddr hactive
    rcases mem_apply h.distinct.nodup hl hactive with hnow | ⟨hpong, l', hl', haddr', hactive', hlast⟩
    · exact hnow ▸ Nat.max_le.2 ⟨h.start_le, hcheck⟩
    · rw [haddr] at hpong
      simp only [watch, hpong, Bool.false_eq_true, if_false, Bool.or_eq_false_iff] at hwaiting
      have hpass : passes d op = false := by
        by_contra hpass
        rw [Bool.not_eq_false] at hpass
        rw [pings_of_registered hpass ⟨l, hl, haddr, hactive⟩] at hwaiting
        cases hwaiting.2
      rw [lastCheck_apply, hpass, if_neg Bool.false_ne_true, ← hlast]
      exact h.heard hwaiting.1 l' hl' (haddr'.trans haddr) hactive'

/-- **A logger that answers stays registered**: in a regular run no call deactivates it,
    whatever the other loggers do. -/
theorem stays_registered {tr : List (Desk × Op)} (h : (Desk.system start).Exec tr d)
    (hregular : Accepts (watch a) (Regular a) ⟨start, false⟩ tr) :
    ∀ x ∈ tr, Registered x.1.loggers a → Registered (x.1.apply x.2).1.loggers a := by
  refine (h.watched (J := Alive start a) (P := fun d op => Registered d.loggers a → Registered (d.apply op).1.loggers a)
    ?_ ?_ hregular).2
  · rintro d rfl
    exact alive_initial start a
  · intro w d op d' hd hx hs
    obtain rfl := Option.some.inj hs
    exact ⟨hd.step, fun hreg => hreg.apply hd.distinct.nodup hx.stays hx.reached fun hpass l hl haddr hactive =>
      hd.not_timeout hx hpass hl haddr hactive⟩

/-- A logger registers, answers the first `PING`, and is sent a second one after 30 s. -/
def twoPings : List Op :=
  [.command (registerText 0) (client 9000) false, .checkHeartbeats fun _ => false,
    .command "PONG".toList (client 9000) false] ++ List.replicate 29 .tick ++
    [.checkHeartbeats fun _ => false, .tick, .checkHeartbeats fun _ => false,
      .sendToLoggers (fun _ => false) "x".toList]

theorem stays_registered_twoPings : ∃ tr d, (Desk.system 1000).Exec tr d ∧ tr.length = 36 ∧
    ∀ x ∈ tr, Registered x.1.loggers (client 9000) → Registered (x.1.apply x.2).1.loggers (client 9000) := by
  obtain ⟨d, -, he, -⟩ := exec_of_any (Desk.initial 1000) (fun d op => some (d.apply op).1) twoPings
    (fun _ => true) (by decide +kernel)
  exact ⟨_, d, he, by decide +kernel, stays_registered he (by decide +kernel)⟩

end Students.V9
