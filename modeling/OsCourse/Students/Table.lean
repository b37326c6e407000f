/-
  The table of loggers of the student server (idz os 4/9) under any sequence of the
  functions that change it.
-/
import Mathlib.Data.List.Nodup
import OsCourse.Students.Registration

namespace Students

open Text Transition System

/-! ## Addresses as text -/

theorem octet_eq_some_iff {t : Text} {x : UInt8} : octet t = some x ↔ t = Nat.toDigits 10 x.toNat := by
  constructor
  · intro h
    simp only [octet] at h
    split_ifs at h with hn
    obtain rfl := Option.some.inj h
    rw [UInt8.toNat_ofNat_of_lt' hn.1, hn.2]
  · rintro rfl
    have hval : Nat.ofDigitChars 10 (Nat.toDigits 10 x.toNat) 0 = x.toNat :=
      Nat.ofDigitChars_toDigits (by decide) (by decide)
    simp [octet, hval, x.toNat_lt]

theorem dot_notMem_toDigits (n : ℕ) : '.' ∉ Nat.toDigits 10 n := by
  intro h
  exact absurd (isDigit_toDigits h) (by decide)

/-- `inet_pton` reads what `inet_ntoa` writes, and nothing else. -/
theorem inetPton_eq_some_iff {t : Text} {ip : IpAddr} : inetPton t = some ip ↔ t = inetNtoa ip := by
  constructor
  · intro h
    rw [inetPton] at h
    split at h
    · next a b c d hsplit =>
      simp only [Option.bind_eq_bind, Option.bind_eq_some_iff, Option.pure_def, Option.some.injEq] at h
      obtain ⟨a', ha, b', hb, c', hc, d', hd, rfl⟩ := h
      rw [octet_eq_some_iff] at ha hb hc hd
      have ht : ['.'].intercalate (t.splitOn '.') = t := List.intercalate_splitOn '.'
      rw [hsplit, ha, hb, hc, hd] at ht
      simp only [← ht, inetNtoa, List.intercalate_cons_cons, List.intercalate_singleton, List.append_assoc,
        List.singleton_append]
    · cases h
  · rintro rfl
    simp only [inetPton, inetNtoa, List.splitOn_append_cons_self_of_not_mem (dot_notMem_toDigits _),
      List.splitOn_eq_singleton (dot_notMem_toDigits _), octet_eq_some_iff.2 rfl]
    rfl

theorem inetNtoa_injective : Function.Injective inetNtoa := by
  intro ip ip' h
  have := inetPton_eq_some_iff.2 h
  rw [inetPton_eq_some_iff.2 rfl] at this
  exact Option.some.inj this

theorem Logger.is_iff {ip : IpAddr} {port : ℤ} {l : Logger} :
    Logger.is (inetNtoa ip) port l = true ↔ l.addr = ⟨ip, UInt16.ofInt port⟩ := by
  rw [Logger.is, Bool.and_eq_true, beq_iff_eq, beq_iff_eq, inetNtoa_injective.eq_iff]
  constructor
  · rintro ⟨hport, hip⟩
    rw [← hport, ← hip]
  · intro h
    rw [h]
    exact ⟨rfl, rfl⟩

/-- The port of an address, as the functions pass it on. -/
theorem ofInt_toNat (x : UInt16) : UInt16.ofInt (x.toNat : ℤ) = x := by
  have := x.toNat_lt
  rw [UInt16.ofInt, Int.emod_eq_of_lt (by omega) (by omega), Int.toNat_natCast, UInt16.ofNat_toNat]

/-! ## The table by addresses -/

/-- The addresses of the entries. -/
def addrs (t : Table) : List Address := t.map Logger.addr

/-- The entries with an address are changed by `f`. -/
def modifyAt (a : Address) (f : Logger → Logger) (t : Table) : Table := t.map fun l => if l.addr = a then f l else l

variable {t : Table} {a b : Address} {l : Logger} {p : Logger → Bool} {f : Logger → Logger} {now : ℕ}

theorem mem_addrs : a ∈ addrs t ↔ ∃ l ∈ t, l.addr = a := List.mem_map

theorem mem_modifyAt : l ∈ modifyAt a f t ↔ ∃ l' ∈ t, (if l'.addr = a then f l' else l') = l := List.mem_map

theorem modifyAt_of_notMem (h : a ∉ addrs t) : modifyAt a f t = t := by
  refine (List.map_congr_left fun l hl => if_neg fun heq => ?_).trans (List.map_id' t)
  exact h (mem_addrs.2 ⟨l, hl, heq⟩)

theorem addrs_modifyAt (hf : ∀ l, (f l).addr = l.addr) : addrs (modifyAt a f t) = addrs t := by
  rw [addrs, modifyAt, List.map_map]
  refine List.map_congr_left fun l _ => ?_
  rw [Function.comp_apply]
  split_ifs
  · exact hf l
  · rfl

/-- In a table without duplicates the first entry with an address is the only one. -/
theorem modifyFirst_eq_modifyAt (hnd : (addrs t).Nodup) (hp : ∀ l, p l = true ↔ l.addr = a) :
    modifyFirst p f t = modifyAt a f t := by
  induction t with
  | nil => rfl
  | cons l t ih =>
    obtain ⟨hl, hnd⟩ := List.nodup_cons.1 hnd
    rw [modifyFirst, modifyAt, List.map_cons]
    by_cases heq : l.addr = a
    · rw [if_pos ((hp l).2 heq), if_pos heq]
      exact congrArg (f l :: ·) (modifyAt_of_notMem (heq ▸ hl)).symm
    · rw [if_neg (mt (hp l).1 heq), if_neg heq]
      exact congrArg (l :: ·) (ih hnd)

/-- An entry that is active since now. -/
def refresh (now : ℕ) (l : Logger) : Logger := { l with active := true, lastActive := now }

/-- The registration of an address: it is refused when the table is full, also for an address
    that is in the table. -/
def register (now : ℕ) (t : Table) (a : Address) : Table :=
  if t.length ≥ maxLoggers then t
  else if a ∈ addrs t then modifyAt a (refresh now) t
  else t ++ [{ addr := a, active := true, lastActive := now }]

theorem any_is_iff {ip : IpAddr} {port : ℤ} :
    t.any (Logger.is (inetNtoa ip) port) = true ↔ ⟨ip, UInt16.ofInt port⟩ ∈ addrs t := by
  rw [List.any_eq_true, mem_addrs]
  simp only [Logger.is_iff]

/-- Without a valid address no entry is found. -/
theorem any_is_eq_false {ip : Text} (hip : inetPton ip = none) (port : ℤ) : t.any (Logger.is ip port) = false := by
  rw [List.any_eq_false]
  intro l _ his
  rw [Logger.is, Bool.and_eq_true, beq_iff_eq, beq_iff_eq] at his
  rw [← his.2, inetPton_eq_some_iff.2 rfl] at hip
  cases hip

namespace V9

/-- `add_logger` registers an address, if the text is one. -/
theorem addLogger_eq (hnd : (addrs t).Nodup) (now : ℕ) (ip : Text) (port : ℤ) : addLogger now t ip port =
    match inetPton ip with
    | none => t
    | some x => register now t ⟨x, UInt16.ofInt port⟩ := by
  rw [addLogger, addLoggerWith]
  cases hip : inetPton ip with
  | none => simp [any_is_eq_false hip]
  | some x =>
    obtain rfl := inetPton_eq_some_iff.1 hip
    simp only [register, modifyFirst_eq_modifyAt hnd fun l => Logger.is_iff, any_is_iff]
    rfl

theorem removeLogger_eq (hnd : (addrs t).Nodup) (ip : IpAddr) (port : ℤ) : removeLogger t (inetNtoa ip) port =
    modifyAt ⟨ip, UInt16.ofInt port⟩ (fun l => { l with active := false }) t :=
  modifyFirst_eq_modifyAt hnd fun _ => Logger.is_iff

/-- The commands, each by its beginning. -/
theorem handleLoggerCommand_eq (hnd : (addrs t).Nodup) (now : ℕ) (cmd : Text) (a : Address) :
    (handleLoggerCommand now t cmd a).1 =
      if "REGISTER".toList.isPrefixOf cmd then register now t a
      else if "UNREGISTER".toList.isPrefixOf cmd then modifyAt a (fun l => { l with active := false }) t
      else if "PONG".toList.isPrefixOf cmd then modifyAt a (fun l => { l with lastActive := now }) t
      else t := by
  simp only [handleLoggerCommand, addLogger_eq hnd, removeLogger_eq hnd, inetPton_eq_some_iff.2 rfl, ofInt_toNat,
    modifyFirst_eq_modifyAt (a := a) hnd fun l => beq_iff_eq]
  split_ifs <;> rfl

variable {fails : ℕ → Bool} {msg : Text} {lastCheck : ℕ} {d : Send}

/-- What a round of a loop over the table leaves of the entries. -/
theorem addrs_mapIdx {g : ℕ → Logger → Logger × List Send} (hg : ∀ i l, (g i l).1.addr = l.addr) :
    addrs ((t.mapIdx g).map Prod.fst) = addrs t := by
  refine List.ext_getElem? fun i => ?_
  simp [addrs, hg, Function.comp_def]

theorem addrs_sendToLoggers : addrs (sendToLoggers fails t msg).1 = addrs t := by
  refine addrs_mapIdx fun i l => ?_
  split_ifs <;> rfl

theorem addr_heartbeat (now : ℕ) (failed : Bool) (l : Logger) : (heartbeat now failed l).1.addr = l.addr := by
  unfold heartbeat
  split_ifs <;> rfl

theorem addrs_checkHeartbeats : addrs (checkHeartbeats now fails lastCheck t).1 = addrs t := by
  rw [checkHeartbeats]
  split_ifs
  · exact addrs_mapIdx fun i l => addr_heartbeat now (fails i) l
  · rfl

/-- `send_to_loggers` sends to the active entries, one after the other. -/
theorem addr_sendToLoggers : (sendToLoggers fails t msg).2.map Send.addr = addrs (t.filter Logger.active) := by
  induction t generalizing fails with
  | nil => rfl
  | cons l t ih =>
    have htail : (sendToLoggers (fun i => fails (i + 1)) t msg).2.map Send.addr = addrs (t.filter Logger.active) := ih
    simp only [sendToLoggers] at htail ⊢
    rw [List.mapIdx_cons, List.map_cons, List.flatten_cons, List.map_append, htail, List.filter_cons]
    split_ifs <;> rfl

instance (t : Table) (a : Address) : Decidable (Registered t a) :=
  inferInstanceAs (Decidable (∃ l ∈ t, l.addr = a ∧ l.active = true))

theorem registered_iff : Registered t a ↔ a ∈ addrs (t.filter Logger.active) := by
  simp only [Registered, mem_addrs, List.mem_filter]
  exact exists_congr fun l => by rw [and_comm (a := l.addr = a), ← and_assoc]

/-- Without duplicates there is one attempt for an active entry, and none for any other
    address. -/
theorem count_sendToLoggers (hnd : (addrs t).Nodup) (fails : ℕ → Bool) (msg : Text) (a : Address) :
    (Registered t a → ((sendToLoggers fails t msg).2.map Send.addr).count a = 1) ∧
      (¬ Registered t a → ((sendToLoggers fails t msg).2.map Send.addr).count a = 0) := by
  have hactive : (addrs (t.filter Logger.active)).Nodup := hnd.sublist (List.filter_sublist.map Logger.addr)
  rw [addr_sendToLoggers, registered_iff]
  exact ⟨List.count_eq_one_of_mem hactive, List.count_eq_zero_of_not_mem⟩

/-! ## Sequences of calls -/

/-- The loggers, the static variable of `check_heartbeats`, and `time(NULL)`. -/
structure Desk where
  loggers : Table
  lastCheck : ℕ
  now : ℕ

/-- A call of one of the functions, or time that goes by. -/
inductive Op where
  | tick
  /-- `add_logger` for an argument of the command line -/
  | addLogger (ip : Text) (port : ℤ)
  /-- `handle_logger_command`; `failed` says whether an answer to `STATUS` cannot be sent -/
  | command (cmd : Text) (a : Address) (failed : Bool)
  | checkHeartbeats (fails : ℕ → Bool)
  | sendToLoggers (fails : ℕ → Bool) (msg : Text)

namespace Desk

/-- What a call does, and what it tries to send. -/
def apply (d : Desk) : Op → Desk × List Send
  | .tick => ({ d with now := d.now + 1 }, [])
  | .addLogger ip port => ({ d with loggers := V9.addLogger d.now d.loggers ip port }, [])
  | .command cmd a failed =>
    let r := handleLoggerCommand d.now d.loggers cmd a
    ({ d with loggers := r.1 }, r.2.map fun x => { addr := x.1, msg := x.2, ok := !failed })
  | .checkHeartbeats fails =>
    let r := V9.checkHeartbeats d.now fails d.lastCheck d.loggers
    ({ d with loggers := r.1, lastCheck := r.2.1 }, r.2.2)
  | .sendToLoggers fails msg =>
    let r := V9.sendToLoggers fails d.loggers msg
    ({ d with loggers := r.1 }, r.2)

/-- Before the first call. -/
def initial (start : ℕ) : Desk := { loggers := [], lastCheck := 0, now := start }

def system (start : ℕ) : System Desk Op := ofFn (initial start) fun d op => some (d.apply op).1

end Desk

/-- The table is within its array, and has no duplicates. -/
structure Distinct (t : Table) : Prop where
  length_le : t.length ≤ maxLoggers
  nodup : (addrs t).Nodup

theorem Distinct.of_addrs (h : Distinct t) {t' : Table} (heq : addrs t' = addrs t) : Distinct t' := by
  have hlen := congrArg List.length heq
  rw [addrs, addrs, List.length_map, List.length_map] at hlen
  exact ⟨hlen ▸ h.length_le, heq ▸ h.nodup⟩

theorem Distinct.register (h : Distinct t) (now : ℕ) (a : Address) : Distinct (register now t a) := by
  rw [Students.register]
  split_ifs with hfull hmem
  · exact h
  · exact h.of_addrs (addrs_modifyAt fun _ => rfl)
  · refine ⟨?_, ?_⟩
    · rw [List.length_append, List.length_singleton]
      omega
    · rw [addrs, List.map_append]
      refine List.nodup_append.2 ⟨h.nodup, List.nodup_singleton a, fun x hx y hy heq => hmem ?_⟩
      obtain rfl : y = a := List.mem_singleton.1 hy
      exact heq ▸ hx

theorem Distinct.apply {d : Desk} (h : Distinct d.loggers) (op : Op) : Distinct (d.apply op).1.loggers := by
  cases op with
  | tick => exact h
  | addLogger ip port =>
    rw [Desk.apply, addLogger_eq h.nodup]
    cases inetPton ip with
    | none => exact h
    | some x => exact h.register d.now _
  | command cmd a failed =>
    simp only [Desk.apply, handleLoggerCommand_eq h.nodup]
    split_ifs
    · exact h.register d.now a
    · exact h.of_addrs (addrs_modifyAt fun _ => rfl)
    · exact h.of_addrs (addrs_modifyAt fun _ => rfl)
    · exact h
  | checkHeartbeats fails => exact h.of_addrs addrs_checkHeartbeats
  | sendToLoggers fails msg => exact h.of_addrs addrs_sendToLoggers

theorem distinct_inductive (start : ℕ) : (Desk.system start).Inductive fun d => Distinct d.loggers := by
  refine ⟨?_, fun d op d' h hs => ?_⟩
  · rintro d rfl
    exact ⟨Nat.zero_le maxLoggers, List.nodup_nil⟩
  · obtain rfl := Option.some.inj hs
    exact h.apply op

/-- **The table in every reachable state**: it is within its array, it has no address twice,
    and `send_to_loggers` makes one attempt for every address that is active, and none for any
    other. -/
theorem reachable_table {start : ℕ} {d : Desk} (h : (Desk.system start).Reachable d) :
    d.loggers.length ≤ maxLoggers ∧ (d.loggers.map Logger.addr).Nodup ∧
      ∀ fails msg a, let attempts := ((d.apply (.sendToLoggers fails msg)).2.map Send.addr).count a
        (Registered d.loggers a → attempts = 1) ∧ (¬ Registered d.loggers a → attempts = 0) := by
  have hd := (distinct_inductive start).reachable h
  exact ⟨hd.length_le, hd.nodup, fun fails msg a => count_sendToLoggers hd.nodup fails msg a⟩

/-- A logger is added twice, and another one registers and cannot be reached. -/
def twoLoggers : List Op :=
  [.addLogger "127.0.0.1".toList 9000, .addLogger "127.0.0.1".toList 9000,
    .command "REGISTER 1".toList ⟨localhost, 9001⟩ false, .sendToLoggers (fun i => i == 1) "x".toList]

theorem table_twoLoggers : ∃ d : Desk, d.loggers.length = 2 ∧
    ((d.apply (.sendToLoggers (fun _ => false) "y".toList)).2.map Send.addr).count ⟨localhost, 9001⟩ = 0 := by
  obtain ⟨d, hd, -, hp⟩ := exec_of_any (Desk.initial 1000) (fun d op => some (d.apply op).1) twoLoggers
    (fun d => d.loggers == [⟨⟨localhost, 9000⟩, true, 1000⟩, ⟨⟨localhost, 9001⟩, false, 1000⟩]) (by decide +kernel)
  have hloggers := beq_iff_eq.1 hp
  refine ⟨d, by rw [hloggers]; rfl, ((reachable_table (reachable_runFn hd)).2.2 _ _ _).2 ?_⟩
  rw [hloggers]
  decide

/-! ## Reconnection -/

/-- The address is in the table, or fewer than `MAX_LOGGERS` loggers are active. -/
def HasRoom (t : Table) (a : Address) : Prop := a ∈ addrs t ∨ t.countP Logger.active < maxLoggers

/-- After a registration the address is active, if the table is not full, or it was active. -/
theorem registered_register : Registered (register now t a) a ↔ t.length < maxLoggers ∨ Registered t a := by
  rw [register]
  split_ifs with hfull hmem
  · simp [Nat.not_lt.2 hfull]
  · refine iff_of_true ?_ (Or.inl (Nat.lt_of_not_le hfull))
    obtain ⟨l, hl, heq⟩ := mem_addrs.1 hmem
    exact ⟨refresh now l, mem_modifyAt.2 ⟨l, hl, if_pos heq⟩, heq, rfl⟩
  · refine iff_of_true ?_ (Or.inl (Nat.lt_of_not_le hfull))
    exact ⟨_, List.mem_append_right t List.mem_cons_self, rfl, rfl⟩

/-- **When a logger can reconnect**: the table still has a free entry, or the logger is active,
    or nothing has been promised to it.  The entries of loggers that have left stay, and the
    table is tested for room before it is searched. -/
theorem reconnects_iff {start : ℕ} {d : Desk} (h : (Desk.system start).Reachable d) (cmd : Text) (a : Address)
    (failed : Bool) (hcmd : "REGISTER".toList.isPrefixOf cmd = true) :
    (HasRoom d.loggers a → Registered (d.apply (.command cmd a failed)).1.loggers a) ↔
      d.loggers.length < maxLoggers ∨ Registered d.loggers a ∨
        (a ∉ addrs d.loggers ∧ maxLoggers ≤ d.loggers.countP Logger.active) := by
  have hd := (distinct_inductive start).reachable h
  simp only [Desk.apply, handleLoggerCommand_eq hd.nodup, hcmd, if_true]
  rw [registered_register, HasRoom]
  constructor
  · intro hroom
    by_cases hpre : a ∈ addrs d.loggers ∨ d.loggers.countP Logger.active < maxLoggers
    · exact (hroom hpre).imp_right Or.inl
    · rw [not_or, Nat.not_lt] at hpre
      exact Or.inr (Or.inr hpre)
  · rintro (hlen | hreg | ⟨hnew, hfull⟩) hpre
    · exact Or.inl hlen
    · exact Or.inr hreg
    · rcases hpre with hmem | hlt
      · exact absurd hmem hnew
      · omega

/-- The address of a logger client on this host. -/
def client (port : UInt16) : Address := ⟨localhost, port⟩

/-- Ten loggers register, and the first of them leaves. -/
def tenLoggers : List Op :=
  [9000, 9001, 9002, 9003, 9004, 9005, 9006, 9007, 9008, 9009].map
    (fun port => .command (registerText 0) (client port) false) ++ [.command "UNREGISTER".toList (client 9000) false]

theorem not_reconnects : ¬ ∀ (start : ℕ) (d : Desk) (cmd : Text) (a : Address) (failed : Bool),
    (Desk.system start).Reachable d → "REGISTER".toList.isPrefixOf cmd = true →
      HasRoom d.loggers a → Registered (d.apply (.command cmd a failed)).1.loggers a := by
  intro hall
  obtain ⟨d, hd, -, hp⟩ := exec_of_any (Desk.initial 1000) (fun d op => some (d.apply op).1) tenLoggers
    (fun d => d.loggers.countP Logger.active < maxLoggers ∧
      ¬ Registered (d.apply (.command (registerText 0) (client 9000) false)).1.loggers (client 9000))
    (by decide +kernel)
  rw [decide_eq_true_iff] at hp
  exact hp.2 (hall 1000 d (registerText 0) (client 9000) false (reachable_runFn hd) (by decide) (Or.inr hp.1))

/-- A logger that has left reconnects, as the table is not full. -/
theorem reconnects_client : ∃ d : Desk, ¬ Registered d.loggers (client 9000) ∧
    (HasRoom d.loggers (client 9000) →
      Registered (d.apply (.command (registerText 0) (client 9000) false)).1.loggers (client 9000)) := by
  obtain ⟨d, hd, -, hp⟩ := exec_of_any (Desk.initial 1000) (fun d op => some (d.apply op).1)
    [.command (registerText 0) (client 9000) false, .command "UNREGISTER".toList (client 9000) false]
    (fun d => d.loggers.length < maxLoggers ∧ ¬ Registered d.loggers (client 9000)) (by decide +kernel)
  rw [decide_eq_true_iff] at hp
  exact ⟨d, hp.2, (reconnects_iff (reachable_runFn hd) _ _ _ (by decide)).2 (Or.inl hp.1)⟩

end V9

end Students
