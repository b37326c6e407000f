/-
  The student server for `n` suitors (idz os 4/8): it collects `n` datagrams, chooses
  the best proposal and answers.  The network delivers the datagrams in any order and
  can duplicate them.
-/
import Mathlib.Data.Fintype.Card
import OsCourse.Lib.Traces
import OsCourse.Students.Proposals

namespace Students.V8

open Text Transition System

/-- The suitors (`client.c`), each with the address of its socket and the proposal that it
    sends, and the loggers of the command line. -/
structure Config (n : ℕ) where
  addr : Fin n → Address
  proposal : Fin n → Text
  injective : Function.Injective addr
  loggers : List (Text × ℤ)

variable {n : ℕ}

/-- The table of loggers. -/
def Config.table (cfg : Config n) : List Address :=
  cfg.loggers.foldl (fun t l => addLogger t l.1 l.2) []

/-- Where the server is. -/
inductive Pc where
  /-- in the loop that receives the proposals -/
  | collect
  /-- in the loop that sends the answers, before the answer to entry `i` -/
  | answer (best i : ℕ)
  | done
  /-- a datagram has been stored behind the end of the array -/
  | overrun
  deriving DecidableEq

structure State (n : ℕ) where
  pc : Pc
  /-- `clients[0..received)` -/
  clients : List ClientData
  /-- the answers that have been sent -/
  sent : List Reply
  /-- what the loggers have been sent -/
  logs : List (Address × Text)
  /-- the suitors that have sent their proposal -/
  asked : List (Fin n)
  /-- the datagrams on the way to the server -/
  inFlight : List (Fin n)

def initial : State n :=
  { pc := .collect, clients := [], sent := [], logs := [], asked := [], inFlight := [] }

inductive Label (n : ℕ) where
  /-- the suitor sends its proposal -/
  | send (i : Fin n)
  /-- the network duplicates a datagram of the suitor -/
  | duplicate (i : Fin n)
  /-- the server receives a datagram of the suitor -/
  | receive (i : Fin n)
  /-- `select` or `recvfrom` return without one -/
  | nothing
  /-- the server goes on -/
  | go

/-- `Proposal received from %s:%d: %s` -/
def receivedText (c : ClientData) : Text := "Proposal received from ".toList ++ c.addr.text ++ ": ".toList ++ c.message

/-- `Best proposal chosen: %s` -/
def chosenText (c : ClientData) : Text := "Best proposal chosen: ".toList ++ c.message

def Answer.text : Answer → Text
  | .agree => "Agree".toList
  | .reject => "Reject".toList
  | .shutdown => []

/-- `Response sent to %s:%d: %s` -/
def responseText (r : Reply) : Text := "Response sent to ".toList ++ r.addr.text ++ ": ".toList ++ Answer.text r.answer

/-- A step of the server, of a suitor, or of the network. -/
def step (cfg : Config n) (s : State n) : Label n → Option (State n)
  | .send i =>
    if i ∈ s.asked then none else some { s with asked := i :: s.asked, inFlight := i :: s.inFlight }
  | .duplicate i => if i ∈ s.inFlight then some { s with inFlight := i :: s.inFlight } else none
  | .receive i =>
    match s.pc with
    | .collect =>
      if s.clients.length < n ∧ i ∈ s.inFlight then
        let c := ClientData.ofDatagram (cfg.addr i) (cfg.proposal i)
        let s := { s with inFlight := s.inFlight.erase i }
        if s.clients.length < maxClients then
          some { s with
            clients := s.clients ++ [c]
            logs := s.logs ++ sendToLoggers cfg.table (receivedText c) }
        else some { s with pc := .overrun }
      else none
    | _ => none
  | .nothing =>
    match s.pc with
    | .collect => if s.clients.length < n then some s else none
    | _ => none
  | .go =>
    match s.pc with
    | .collect =>
      if s.clients.length < n then none
      else
        let best := selectBest s.clients n
        some { s with
          pc := .answer best 0
          logs := s.logs ++ sendToLoggers cfg.table (chosenText (entry s.clients best)) }
    | .answer best i =>
      if i < n then
        let r := reply s.clients (response best) i
        some { s with
          pc := .answer best (i + 1)
          sent := s.sent ++ [r]
          logs := s.logs ++ sendToLoggers cfg.table (responseText r) }
      else some { s with pc := .done }
    | .done | .overrun => none

def system (cfg : Config n) : System (State n) (Label n) := ofFn initial (step cfg)

/-- The server has ended. -/
def Ended (s : State n) : Prop := s.pc = .done ∨ s.pc = .overrun

variable (cfg : Config n)

/-- A proposal of the suitor has been recorded. -/
def Recorded (s : State n) (i : Fin n) : Prop := ∃ c ∈ s.clients, c.addr = cfg.addr i

/-- The answers that the suitor has been sent. -/
def answersTo (s : State n) (i : Fin n) : List Answer :=
  (s.sent.filter fun r => r.addr = cfg.addr i).map Reply.answer

/-- Everybody has been recorded, those who have been recorded have one answer, and one
    suitor has the consent. -/
structure Fair (s : State n) : Prop where
  recorded : ∀ i, Recorded cfg s i
  answered : ∀ i, Recorded cfg s i → (answersTo cfg s i).length = 1
  agree : ∃! i, Answer.agree ∈ answersTo cfg s i

/-- The server receives a datagram of a suitor that has been recorded already. -/
def Repeats (s : State n) (a : Label n) : Prop := ∃ i, a = .receive i ∧ Recorded cfg s i

variable {cfg} {s s' : State n} {tr : List (State n × Label n)} {i : Fin n}

/-! ## The steps -/

/-- What is recorded of the suitor's datagram. -/
def client (cfg : Config n) (i : Fin n) : ClientData := ClientData.ofDatagram (cfg.addr i) (cfg.proposal i)

/-- What a step does to the server. -/
inductive Change (cfg : Config n) (s s' : State n) : Label n → Prop
  | network {a : Label n} : s'.pc = s.pc → s'.clients = s.clients → s'.sent = s.sent → (∀ i, a ≠ .receive i) →
      Change cfg s s' a
  | receive {j : Fin n} : s.pc = .collect → s.clients.length < n → s.clients.length < maxClients →
      s'.pc = .collect → s'.clients = s.clients ++ [client cfg j] → s'.sent = s.sent → Change cfg s s' (.receive j)
  | overrun {j : Fin n} : s.pc = .collect → s.clients.length < n → maxClients ≤ s.clients.length →
      s'.pc = .overrun → s'.clients = s.clients → s'.sent = s.sent → Change cfg s s' (.receive j)
  | choose : s.pc = .collect → n ≤ s.clients.length → s'.pc = .answer (selectBest s.clients n) 0 →
      s'.clients = s.clients → s'.sent = s.sent → Change cfg s s' .go
  | answer {best k : ℕ} : s.pc = .answer best k → k < n → s'.pc = .answer best (k + 1) → s'.clients = s.clients →
      s'.sent = s.sent ++ [reply s.clients (response best) k] → Change cfg s s' .go
  | finish {best k : ℕ} : s.pc = .answer best k → n ≤ k → s'.pc = .done → s'.clients = s.clients →
      s'.sent = s.sent → Change cfg s s' .go

theorem step_change {a : Label n} (h : step cfg s a = some s') : Change cfg s s' a := by
  cases a with
  | send i =>
    simp only [step] at h
    split_ifs at h
    cases h
    exact .network rfl rfl rfl (fun _ h => by cases h)
  | duplicate i =>
    simp only [step] at h
    split_ifs at h
    cases h
    exact .network rfl rfl rfl (fun _ h => by cases h)
  | receive i =>
    simp only [step] at h
    split at h
    · next hpc =>
      split_ifs at h with hlt hmax
      · cases h
        exact .receive hpc hlt.1 hmax hpc rfl rfl
      · cases h
        exact .overrun hpc hlt.1 (not_lt.1 hmax) rfl rfl rfl
    · cases h
  | nothing =>
    simp only [step] at h
    split at h
    · split_ifs at h
      cases h
      exact .network rfl rfl rfl (fun _ h => by cases h)
    · cases h
  | go =>
    simp only [step] at h
    split at h
    · next hpc =>
      split_ifs at h with hlt
      cases h
      exact .choose hpc (not_lt.1 hlt) rfl rfl rfl
    · next best i hpc =>
      split_ifs at h with hlt
      · cases h
        exact .answer hpc hlt rfl rfl rfl
      · cases h
        exact .finish hpc (not_lt.1 hlt) rfl rfl rfl
    · cases h
    · cases h

/-- What is known at each place of the server. -/
def Inv (s : State n) : Prop :=
  s.clients.length ≤ maxClients ∧
    match s.pc with
    | .collect => s.clients.length ≤ n ∧ s.sent = []
    | .answer best i =>
      s.clients.length = n ∧ i ≤ n ∧ best = selectBest s.clients n ∧ s.sent = replies s.clients (response best) i
    | .done => s.clients.length = n ∧ s.sent = replies s.clients (response (selectBest s.clients n)) n
    | .overrun => s.clients.length < n ∧ maxClients ≤ s.clients.length ∧ s.sent = []

theorem inv_inductive (cfg : Config n) : (system cfg).Inductive Inv := by
  refine ⟨?_, fun s a s' hi hs => ?_⟩
  · rintro s rfl
    exact ⟨Nat.zero_le _, Nat.zero_le _, rfl⟩
  · obtain ⟨hmax, hi⟩ := hi
    have hchange : Change cfg s s' a := step_change hs
    cases hchange with
    | network hpc hc hsent' _ =>
      unfold Inv
      rw [hpc, hc, hsent']
      exact ⟨hmax, hi⟩
    | receive hpc hlt hm hpc' hc hsent' =>
      unfold Inv
      rw [hpc] at hi
      rw [hpc', hc, hsent', List.length_append, List.length_singleton]
      exact ⟨hm, hlt, hi.2⟩
    | overrun hpc hlt hm hpc' hc hsent' =>
      unfold Inv
      rw [hpc] at hi
      rw [hpc', hc, hsent']
      exact ⟨hmax, hlt, hm, hi.2⟩
    | choose hpc hge hpc' hc hsent' =>
      unfold Inv
      rw [hpc] at hi
      rw [hpc', hc, hsent']
      exact ⟨hmax, Nat.le_antisymm hi.1 hge, Nat.zero_le _, rfl, hi.2⟩
    | answer hpc hlt hpc' hc hsent' =>
      unfold Inv
      rw [hpc] at hi
      obtain ⟨hlen, -, hbest, hsent⟩ := hi
      rw [hpc', hc, hsent', hsent, ← replies_succ]
      exact ⟨hmax, hlen, hlt, hbest, rfl⟩
    | finish hpc hge hpc' hc hsent' =>
      unfold Inv
      rw [hpc] at hi
      obtain ⟨hlen, hle, hbest, hsent⟩ := hi
      rw [hpc', hc, hsent', hsent, Nat.le_antisymm hle hge, hbest]
      exact ⟨hmax, hlen, rfl⟩

/-! ## Who is recorded -/

theorem recorded_iff {order : List (Fin n)} (h : s.clients = order.map (client cfg)) :
    Recorded cfg s i ↔ i ∈ order := by
  constructor
  · rintro ⟨c, hc, haddr⟩
    rw [h] at hc
    obtain ⟨j, hj, rfl⟩ := List.mem_map.1 hc
    exact cfg.injective haddr ▸ hj
  · intro hi
    exact ⟨client cfg i, by rw [h]; exact List.mem_map_of_mem hi, rfl⟩

/-- The suitors in the order of the entries: nobody is there twice, unless a datagram has
    been received again. -/
theorem exists_order (h : (system cfg).Exec tr s) (hmax : n ≤ maxClients) :
    ∃ order : List (Fin n), s.clients = order.map (client cfg) ∧
      (order.Nodup ↔ ∀ x ∈ tr, ¬ Repeats cfg x.1 x.2) := by
  induction h with
  | init hi =>
    cases hi
    exact ⟨[], rfl, by simp⟩
  | @snoc tr s a s' he hs ih =>
    obtain ⟨order, hc, hnodup⟩ := ih
    simp only [List.mem_append, List.mem_singleton, or_imp, forall_and, forall_eq]
    have hkeep : s'.clients = s.clients → (∀ i, a ≠ .receive i) → ∃ order : List (Fin n),
        s'.clients = order.map (client cfg) ∧
          (order.Nodup ↔ (∀ x ∈ tr, ¬ Repeats cfg x.1 x.2) ∧ ¬ Repeats cfg s a) := by
      intro hc' ha
      refine ⟨order, hc' ▸ hc, hnodup.trans ⟨fun h => ⟨h, ?_⟩, And.left⟩⟩
      rintro ⟨i, rfl, -⟩
      exact ha i rfl
    cases step_change hs with
    | network _ hc' _ ha => exact hkeep hc' ha
    | @receive i _ _ _ _ hc' _ =>
      refine ⟨order ++ [i], by rw [hc', hc, List.map_append]; rfl, ?_⟩
      have hrep : Repeats cfg s (.receive i) ↔ i ∈ order := by
        rw [← recorded_iff hc]
        constructor
        · rintro ⟨j, hj, hrec⟩
          cases hj
          exact hrec
        · intro hrec
          exact ⟨i, rfl, hrec⟩
      rw [hrep, ← hnodup, List.nodup_append_comm, List.singleton_append, List.nodup_cons, and_comm]
    | overrun _ hlt hge _ _ _ => omega
    | choose _ _ _ hc' _ => exact hkeep hc' (fun _ h => by cases h)
    | answer _ _ _ hc' _ => exact hkeep hc' (fun _ h => by cases h)
    | finish _ _ _ hc' _ => exact hkeep hc' (fun _ h => by cases h)

/-! ## The answers -/

/-- When everybody has been recorded once, the answer to a suitor is the one to its entry. -/
theorem answersTo_eq {order : List (Fin n)} (h : s.clients = order.map (client cfg)) (hnodup : order.Nodup)
    {answer : ℕ → Answer} (hsent : s.sent = replies s.clients answer order.length) {k : ℕ}
    (hk : k < order.length) : answersTo cfg s order[k] = [answer k] := by
  have hentry : ∀ j (hj : j < order.length), (entry s.clients j).addr = cfg.addr order[j] := by
    intro j hj
    rw [h, entry_eq_get (by simpa using hj), List.getElem_map]; rfl
  have hfilter : s.sent.filter (fun r => r.addr = cfg.addr order[k]) =
      (replies s.clients answer order.length).filter fun r => r.client = k := by
    rw [hsent]
    refine List.filter_congr fun r hr => ?_
    obtain ⟨j, hj, rfl⟩ := mem_replies.1 hr
    have : (reply s.clients answer j).addr = cfg.addr order[j] := hentry j hj
    rw [this]
    congr 1
    rw [cfg.injective.eq_iff, hnodup.getElem_inj_iff]; rfl
  rw [answersTo, hfilter, filter_replies hk]; rfl

theorem length_order {order : List (Fin n)} (h : s.clients = order.map (client cfg)) (hlen : s.clients.length = n) :
    order.length = n := by
  rw [← List.length_map (client cfg), ← h, hlen]

theorem fair_of_nodup {order : List (Fin n)} (hn : 0 < n) (h : s.clients = order.map (client cfg))
    (hlen : s.clients.length = n) (hnodup : order.Nodup)
    (hsent : s.sent = replies s.clients (response (selectBest s.clients n)) n) : Fair cfg s := by
  have hlen' := length_order h hlen
  have hall : ∀ i, i ∈ order := by
    intro i
    have huniv : order.toFinset = Finset.univ := by
      rw [← Finset.card_eq_iff_eq_univ, List.toFinset_card_of_nodup hnodup, hlen', Fintype.card_fin]
    have := Finset.mem_univ i
    rwa [← huniv, List.mem_toFinset] at this
  have hanswers : ∀ k (hk : k < order.length),
      answersTo cfg s order[k] = [response (selectBest s.clients n) k] :=
    fun k hk => answersTo_eq h hnodup (hlen'.symm ▸ hsent) hk
  have hbest : selectBest s.clients n < order.length := by
    have hpos : 0 < s.clients.length := by omega
    have hle : s.clients.length ≤ n := by omega
    have := (selectBest_spec hpos hle).lt
    omega
  refine ⟨fun i => (recorded_iff h).2 (hall i), fun i _ => ?_, order[selectBest s.clients n], ?_, ?_⟩
  · obtain ⟨k, hk, rfl⟩ := List.mem_iff_getElem.1 (hall i)
    rw [hanswers k hk]; rfl
  · show Answer.agree ∈ answersTo cfg s order[selectBest s.clients n]
    rw [hanswers _ hbest, response, if_pos rfl]
    exact List.mem_singleton_self _
  · intro i hi
    obtain ⟨k, hk, rfl⟩ := List.mem_iff_getElem.1 (hall i)
    replace hi : Answer.agree ∈ answersTo cfg s order[k] := hi
    rw [hanswers k hk, response] at hi
    split_ifs at hi with hkb
    · subst hkb; rfl
    · simp at hi

/-- When everybody is among the `n` entries, nobody is there twice. -/
theorem nodup_of_recorded {order : List (Fin n)} (h : s.clients = order.map (client cfg))
    (hlen : s.clients.length = n) (hall : ∀ i, Recorded cfg s i) : order.Nodup := by
  have huniv : order.toFinset = Finset.univ := by
    ext i
    simp only [List.mem_toFinset, Finset.mem_univ, iff_true]
    exact (recorded_iff h).1 (hall i)
  have hcard : order.toFinset.card = order.length := by
    rw [huniv, Finset.card_univ, Fintype.card_fin, length_order h hlen]
  rw [List.card_toFinset] at hcard
  exact List.dedup_eq_self.1 ((List.dedup_sublist order).eq_of_length hcard)

/-! ## The server ends -/

/-- Every suitor that has asked is recorded or on the way. -/
def Sending (s : State n) : Prop :=
  s.asked.Nodup ∧ (s.pc = .collect → s.asked.length ≤ s.clients.length + s.inFlight.length)

theorem sending_inductive (cfg : Config n) : (system cfg).Inductive Sending := by
  refine ⟨?_, fun s a s' hi hs => ?_⟩
  · rintro s rfl
    exact ⟨List.nodup_nil, fun _ => Nat.zero_le _⟩
  · obtain ⟨hnodup, hle⟩ := hi
    replace hs : step cfg s a = some s' := hs
    cases a with
    | send i =>
      simp only [step] at hs
      split_ifs at hs with hi
      cases hs
      refine ⟨List.nodup_cons.2 ⟨hi, hnodup⟩, fun hpc => ?_⟩
      have := hle hpc
      simp only [List.length_cons]; omega
    | duplicate i =>
      simp only [step] at hs
      split_ifs at hs
      cases hs
      refine ⟨hnodup, fun hpc => ?_⟩
      have := hle hpc
      simp only [List.length_cons]; omega
    | receive i =>
      simp only [step] at hs
      split at hs
      · next hpc =>
        split_ifs at hs with hlt hmax
        · cases hs
          refine ⟨hnodup, fun _ => ?_⟩
          have := hle hpc
          have hpos := List.length_pos_of_mem hlt.2
          simp only [List.length_append, List.length_singleton, List.length_erase_of_mem hlt.2]; omega
        · cases hs
          exact ⟨hnodup, fun h => (by cases h)⟩
      · cases hs
    | nothing =>
      simp only [step] at hs
      split at hs
      · split_ifs at hs
        cases hs
        exact ⟨hnodup, hle⟩
      · cases hs
    | go =>
      simp only [step] at hs
      split at hs
      · split_ifs at hs
        cases hs
        exact ⟨hnodup, fun h => (by cases h)⟩
      · split_ifs at hs
        · cases hs
          exact ⟨hnodup, fun h => (by cases h)⟩
        · cases hs
          exact ⟨hnodup, fun h => (by cases h)⟩
      · cases hs
      · cases hs

/-- How many steps are still to come, but for duplicates and timeouts. -/
def rank (s : State n) : ℕ :=
  (n - s.asked.length) +
    match s.pc with
    | .collect => (n - s.clients.length) + n + 2
    | .answer _ i => (n - i) + 1
    | .done | .overrun => 0

/-- There is always a step that leads on. -/
theorem exists_step (h : (system cfg).Reachable s) (hend : ¬ Ended s) :
    ∃ a s', step cfg s a = some s' ∧ rank s' < rank s := by
  obtain ⟨hnodup, hle⟩ := (sending_inductive cfg).reachable h
  cases hpc : s.pc with
  | collect =>
    by_cases hlt : s.clients.length < n
    · cases hfl : s.inFlight with
      | nil =>
        -- somebody has not asked yet
        have hle := hle hpc
        rw [hfl, List.length_nil] at hle
        obtain ⟨i, hi⟩ : ∃ i, i ∉ s.asked := by
          by_contra hall
          have hall : ∀ i, i ∈ s.asked := by simpa using hall
          have := List.toFinset_card_of_nodup hnodup
          rw [Finset.eq_univ_iff_forall.2 fun i => List.mem_toFinset.2 (hall i), Finset.card_univ,
            Fintype.card_fin] at this
          omega
        refine ⟨.send i, _, if_neg hi, ?_⟩
        simp only [rank, hpc, List.length_cons]; omega
      | cons i l =>
        have hi : i ∈ s.inFlight := hfl ▸ List.mem_cons_self
        by_cases hmax : s.clients.length < maxClients
        · refine ⟨.receive i, _, by simp only [step, hpc, hlt, hi, hmax, and_self, if_true]; rfl, ?_⟩
          simp only [rank, List.length_append, List.length_singleton, hpc]; omega
        · refine ⟨.receive i, _, by simp only [step, hpc, hlt, hi, hmax, and_self, if_true, if_false]; rfl, ?_⟩
          simp only [rank, hpc]; omega
    · refine ⟨.go, _, by simp only [step, hpc, hlt, if_false]; rfl, ?_⟩
      simp only [rank, hpc]; omega
  | answer best i =>
    by_cases hlt : i < n
    · refine ⟨.go, _, by simp only [step, hpc, hlt, if_true]; rfl, ?_⟩
      simp only [rank, hpc]; omega
    · refine ⟨.go, _, by simp only [step, hpc, hlt, if_false]; rfl, ?_⟩
      simp only [rank, hpc]; omega
  | done => exact absurd (.inl hpc) hend
  | overrun => exact absurd (.inr hpc) hend

/-- **When the answers are fair.**  The server can always come to its end.  There, if it
    has ended, everybody has been recorded, the recorded ones have one answer each, and
    one has the consent, iff the array has room for all and no suitor's datagram has
    been received twice: the server counts datagrams and not senders. -/
theorem fair_iff (cfg : Config n) (hn : 0 < n) (h : (system cfg).Exec tr s) :
    (∃ tr' s', (system cfg).Steps s tr' s' ∧ Ended s') ∧
      (Ended s → (Fair cfg s ↔ n ≤ maxClients ∧ ∀ x ∈ tr, ¬ Repeats cfg x.1 x.2)) := by
  have hreach : (system cfg).Reachable s := ⟨tr, h⟩
  refine ⟨hreach.exists_steps rank fun _ hs hend => exists_step hs hend, fun hend => ?_⟩
  obtain ⟨hmax, hi⟩ := (inv_inductive cfg).reachable hreach
  rcases hend with hpc | hpc
  · rw [hpc] at hi
    obtain ⟨hlen, hsent⟩ := hi
    have hle : n ≤ maxClients := hlen ▸ hmax
    obtain ⟨order, horder, hnodup⟩ := exists_order h hle
    rw [and_iff_right hle, ← hnodup]
    constructor
    · intro hf
      exact nodup_of_recorded horder hlen hf.recorded
    · intro hnd
      exact fair_of_nodup hn horder hlen hnd hsent
  · -- nobody has an answer after an overrun
    rw [hpc] at hi
    obtain ⟨hlt, hge, hsent⟩ := hi
    constructor
    · intro hf
      obtain ⟨i, hi, -⟩ := hf.agree
      simp [answersTo, hsent] at hi
    · rintro ⟨hle, -⟩
      omega

theorem two_injective :
    Function.Injective fun i : Fin 2 => (⟨⟨127, 0, 0, 1⟩, 40000 + UInt16.ofNat i.val⟩ : Address) := by
  decide

/-- Two suitors on one host. -/
def two : Config 2 where
  addr i := ⟨⟨127, 0, 0, 1⟩, 40000 + UInt16.ofNat i.val⟩
  proposal _ := "a concert".toList
  injective := two_injective
  loggers := []

/-- The datagram of the first suitor is received twice. -/
def twice : List (Label 2) := [.send 0, .duplicate 0, .receive 0, .receive 0, .go, .go, .go, .go]

theorem not_fair : ¬ ∀ n, 0 < n → ∀ (cfg : Config n) (s : State n),
    (system cfg).Reachable s → Ended s → Fair cfg s := by
  intro hall
  obtain ⟨s, -, he, hp⟩ := exec_of_any initial (step two) twice
    (fun s => s.pc == .done && s.clients.all fun c => c.addr != two.addr 1) (by decide +kernel)
  simp only [Bool.and_eq_true, beq_iff_eq, List.all_eq_true, bne_iff_ne] at hp
  obtain ⟨c, hc, haddr⟩ := (hall 2 (by decide) two s ⟨_, he⟩ (.inl hp.1)).recorded 1
  exact hp.2 c hc haddr

/-- Both datagrams are received. -/
def once : List (Label 2) := [.send 0, .send 1, .receive 1, .receive 0, .go, .go, .go, .go]

theorem fair_iff_once : ∃ tr s, (system two).Exec tr s ∧ Ended s ∧
    (∃ tr' s', (system two).Steps s tr' s' ∧ Ended s') ∧
      (Ended s → (Fair two s ↔ 2 ≤ maxClients ∧ ∀ x ∈ tr, ¬ Repeats two x.1 x.2)) := by
  obtain ⟨s, -, he, hp⟩ := exec_of_any initial (step two) once (fun s => s.pc == .done) (by decide +kernel)
  exact ⟨_, s, he, .inl (by simpa using hp), fair_iff two (by decide) he⟩

end Students.V8
