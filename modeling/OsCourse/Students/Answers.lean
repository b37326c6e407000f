/-
  The end of the student server (idz os 4): the loop that chooses the best of the recorded
  proposals, and the loop that answers, with what the loggers are sent in between.
-/
import OsCourse.Lib.Loop
import OsCourse.Students.Suitors

namespace Students

open Text FirstMax Loop Transition System

/-- `snprintf(buf, size, ...)` of a text: it is cut when it does not fit. -/
def snprintf (size : ℕ) (t : Text) : Text := t.take (size - 1)

/-- `if (strlen(clients[i].message) > strlen(clients[best].message)) best = i;` -/
def chooseRound (clients : List ClientData) (best i : ℕ) : Option ℕ := do
  let c ← clients[i]?
  let b ← clients[best]?
  return if c.message.length > b.message.length then i else best

/-- The loop that chooses among the first `n` entries; `none` when it reads an entry that has
    not been recorded. -/
def chooseBest (clients : List ClientData) (n : ℕ) : Option ℕ := forLoop 1 n (chooseRound clients) 0

section
-- `hasLoggers` is `num_loggers > 0`, and `tell` is `send_to_loggers`
variable {σ : Type} (hasLoggers : σ → Bool) (tell : σ → Text → σ) (chosen : ClientData → Text) (told : Reply → Text)

/-- The round of the second loop for entry `i`. -/
def answerOne (clients : List ClientData) (best : ℕ) (st : List Reply × σ) (i : ℕ) : Option (List Reply × σ) := do
  let c ← clients[i]?
  let r : Reply := { client := i, addr := c.addr, answer := response best i }
  return (st.1 ++ [r], if hasLoggers st.2 then tell st.2 (told r) else st.2)

/-- The two loops for `n` clients: the answers that are sent, and what becomes of the
    loggers; `none` when an entry is read that has not been recorded. -/
def finishWith (clients : List ClientData) (n : ℕ) (s : σ) : Option (List Reply × σ) :=
  (chooseBest clients n).bind fun best =>
    (if hasLoggers s then (clients[best]?).map fun c => tell s (chosen c) else some s).bind fun s' =>
      forLoop 0 n (answerOne hasLoggers tell told clients best) ([], s')

end

variable {clients : List ClientData} {n best i : ℕ}

theorem getElem?_eq_entry (hi : i < clients.length) : clients[i]? = some (entry clients i) := by
  rw [entry_eq_get hi, List.getElem?_eq_getElem hi]

/-- The choice reads recorded entries only. -/
theorem chooseBest_eq (hn : n ≤ clients.length) : chooseBest clients n = some (selectBest clients n) := by
  rcases Nat.eq_zero_or_pos n with rfl | hpos
  · rfl
  · refine forLoop_eq (f := selectBest clients) hpos fun i hi hin => ?_
    have hbest := (isFirstMax_firstMax (fun i => (entry clients i).message.length) hi).lt
    rw [chooseRound, getElem?_eq_entry (by omega), getElem?_eq_entry (by rw [selectBest]; omega), selectBest,
      selectBest, firstMax_succ _ hi]
    rfl

section
variable {σ : Type} (hasLoggers : σ → Bool) (tell : σ → Text → σ) (chosen : ClientData → Text) (told : Reply → Text)

/-- What becomes of the loggers when they are sent a text, if there are any. -/
def tellAny (s : σ) (t : Text) : σ := if hasLoggers s then tell s t else s

/-- The answers to the first `n` entries, when these have been recorded. -/
theorem answerLoop_eq (hn : n ≤ clients.length) (best : ℕ) (s : σ) :
    forLoop 0 n (answerOne hasLoggers tell told clients best) ([], s) =
      some (replies clients (response best) n,
        ((replies clients (response best) n).map told).foldl (tellAny hasLoggers tell) s) := by
  refine forLoop_eq (f := fun i => (replies clients (response best) i,
    ((replies clients (response best) i).map told).foldl (tellAny hasLoggers tell) s)) (Nat.zero_le n) fun i _ hin => ?_
  rw [answerOne, getElem?_eq_entry (by omega), replies_succ, List.map_append, List.foldl_append]
  rfl

/-- **The end of the server**, when all entries have been recorded, and there is one or there
    are no loggers. -/
theorem finishWith_eq (hn : n ≤ clients.length) {s : σ} (hread : 0 < n ∨ hasLoggers s = false) :
    finishWith hasLoggers tell chosen told clients n s =
      some (replies clients (response (selectBest clients n)) n,
        (chosen (entry clients (selectBest clients n)) ::
          (replies clients (response (selectBest clients n)) n).map told).foldl (tellAny hasLoggers tell) s) := by
  rw [finishWith, chooseBest_eq hn]
  have hchosen : (if hasLoggers s then (clients[selectBest clients n]?).map fun c => tell s (chosen c) else some s) =
      some (tellAny hasLoggers tell s (chosen (entry clients (selectBest clients n)))) := by
    rw [tellAny]
    split_ifs with hs
    · have hpos := hread.resolve_right (by simp [hs])
      have hbest := (isFirstMax_firstMax (fun i => (entry clients i).message.length) hpos).lt
      rw [getElem?_eq_entry (by rw [selectBest]; omega), Option.map_some]
    · rfl
  rw [Option.bind_some, hchosen, Option.bind_some, answerLoop_eq hasLoggers tell told hn, List.foldl_cons]

/-- Without any entry the best proposal is read all the same, when there are loggers. -/
theorem finishWith_nil {s : σ} (hs : hasLoggers s = true) : finishWith hasLoggers tell chosen told [] 0 s = none := by
  rw [finishWith, chooseBest_eq (Nat.le_refl 0), Option.bind_some, if_pos hs]
  rfl

/-- With fewer entries the loops read one that has not been recorded. -/
theorem finishWith_eq_none (hn : clients.length < n) (s : σ) :
    finishWith hasLoggers tell chosen told clients n s = none := by
  have hnone : ∀ best s, forLoop 0 n (answerOne hasLoggers tell told clients best) ([], s) = none := by
    intro best s
    refine forLoop_eq_none (Nat.zero_le clients.length) hn fun st => ?_
    rw [answerOne, List.getElem?_eq_none (Nat.le_refl _)]
    rfl
  rw [finishWith, Option.bind_eq_none_iff]
  intro best _
  rw [Option.bind_eq_none_iff]
  intro s' _
  exact hnone best s'

end

/-! ## Texts that fit their buffers -/

theorem snprintf_eq {size : ℕ} {t : Text} (h : t.length < size) : snprintf size t = t :=
  List.take_of_length_le (by omega)

/-- A port has at most five digits, the address in front of it at most 15 characters. -/
theorem length_text_le (a : Address) : a.text.length ≤ 21 := by
  have hbyte : ∀ x : UInt8, (Nat.toDigits 10 x.toNat).length ≤ 3 := fun x =>
    (Nat.length_toDigits_le_iff (by decide) (by decide)).2 (x.toNat_lt.trans (by decide))
  have hport : (Nat.toDigits 10 a.port.toNat).length ≤ 5 :=
    (Nat.length_toDigits_le_iff (by decide) (by decide)).2 (a.port.toNat_lt.trans (by decide))
  have ha := hbyte a.ip.a
  have hb := hbyte a.ip.b
  have hc := hbyte a.ip.c
  have hd := hbyte a.ip.d
  simp only [Address.text, inetNtoa, List.length_append, List.length_cons]
  omega

/-- A recorded message is a string within its array. -/
theorem length_message_ofDatagram (a : Address) (payload : Text) :
    (ClientData.ofDatagram a payload).message.length < maxMsgLen := by
  refine Nat.lt_of_le_of_lt (List.takeWhile_sublist _).length_le ?_
  rw [List.length_take]
  exact Nat.lt_of_le_of_lt (Nat.min_le_left _ _) (by decide)

namespace V8

variable {table : List Address}

/-- The size of `result`. -/
abbrev resultSize : ℕ := maxMsgLen + 100

/-- The size of `msg`. -/
abbrev msgSize : ℕ := 256

/-- The selection and the answers of `main`, and what the loggers are sent. -/
def finish (table : List Address) (clients : List ClientData) (n : ℕ) : Option (List Reply × List (Address × Text)) :=
  finishWith (fun _ => decide (table.length > 0)) (fun logs msg => logs ++ sendToLoggers table msg)
    (fun c => snprintf resultSize (chosenText c)) (fun r => snprintf msgSize (responseText r)) clients n []

/-- What the loggers are sent line by line. -/
theorem foldl_tellAny (table : List Address) (lines : List Text) (logs : List (Address × Text)) :
    lines.foldl (tellAny (fun _ => decide (table.length > 0)) fun logs msg => logs ++ sendToLoggers table msg) logs =
      logs ++ lines.flatMap (sendToLoggers table) := by
  induction lines generalizing logs with
  | nil => exact (List.append_nil logs).symm
  | cons line lines ih =>
    have hline : tellAny (fun _ => decide (table.length > 0)) (fun logs msg => logs ++ sendToLoggers table msg)
        logs line = logs ++ sendToLoggers table line := by
      rw [tellAny]
      split_ifs with h
      · rfl
      · obtain rfl : table = [] := by simpa using h
        exact (List.append_nil logs).symm
    rw [List.foldl_cons, hline, ih, List.flatMap_cons, List.append_assoc]

/-- Each entry of the table with the address `a` is sent the line. -/
theorem filter_sendToLoggers (table : List Address) (line : Text) (a : Address) :
    ((sendToLoggers table line).filter fun x => x.1 = a).map Prod.snd = List.replicate (table.count a) line := by
  induction table with
  | nil => rfl
  | cons b table ih =>
    rw [sendToLoggers, List.map_cons, List.filter_cons, List.count_cons]
    by_cases hb : b = a
    · simp only [hb, decide_true, if_true, List.map_cons, beq_self_eq_true, List.replicate_succ]
      exact congrArg (line :: ·) ih
    · simp only [hb, decide_false, Bool.false_eq_true, if_false, beq_iff_eq, Nat.add_zero]
      exact ih

theorem length_chosenText (c : ClientData) : (chosenText c).length = 22 + c.message.length := by
  have htitle : "Best proposal chosen: ".toList.length = 22 := rfl
  unfold chosenText
  rw [List.length_append, htitle]

theorem length_responseText_le (r : Reply) : (responseText r).length ≤ 46 := by
  have htitle : "Response sent to ".toList.length = 17 := rfl
  have hcolon : ": ".toList.length = 2 := rfl
  have haddr := length_text_le r.addr
  have hanswer : (Answer.text r.answer).length ≤ 6 := by
    cases r.answer <;> decide
  unfold responseText
  simp only [List.length_append, htitle, hcolon]
  omega

/-- No line is cut. -/
theorem finish_eq_replies (table : List Address) (clients : List ClientData) (hpos : 0 < clients.length)
    (hmsg : ∀ c ∈ clients, c.message.length < maxMsgLen) : finish table clients clients.length =
      some (replies clients (response (selectBest clients clients.length)) clients.length,
        (chosenText (entry clients (selectBest clients clients.length)) ::
          (replies clients (response (selectBest clients clients.length)) clients.length).map responseText).flatMap
            (sendToLoggers table)) := by
  have hchosen : snprintf resultSize (chosenText (entry clients (selectBest clients clients.length))) =
      chosenText (entry clients (selectBest clients clients.length)) := by
    refine snprintf_eq ?_
    have hbest := isFirstMax_firstMax (fun i => (entry clients i).message.length) hpos
    have hmem : entry clients (selectBest clients clients.length) ∈ clients := by
      rw [entry_eq_get (i := selectBest clients clients.length) hbest.lt]
      exact List.getElem_mem _
    have := hmsg _ hmem
    rw [length_chosenText]
    simp only [resultSize]
    omega
  have hresponse : ∀ r, snprintf msgSize (responseText r) = responseText r := fun r =>
    snprintf_eq (Nat.lt_of_le_of_lt (length_responseText_le r) (by decide))
  have hfinish : finish table clients clients.length = _ :=
    finishWith_eq (fun _ => decide (table.length > 0)) (fun logs msg => logs ++ sendToLoggers table msg)
      (fun c => snprintf resultSize (chosenText c)) (fun r => snprintf msgSize (responseText r))
      (Nat.le_refl clients.length) (Or.inl hpos)
  rwa [foldl_tellAny, List.nil_append, hchosen, List.map_congr_left fun r _ => hresponse r] at hfinish

/-- **The end of the server**: with the longest proposal first found as the best, entry `i`
    gets answer `i`, the best one the consent, and every entry of the table is sent the same
    lines, the choice and the answers in order. -/
theorem finish_eq (table : List Address) (clients : List ClientData) (hpos : 0 < clients.length)
    (hmsg : ∀ c ∈ clients, c.message.length < maxMsgLen) :
    ∃ (best : ℕ) (sent : List Reply) (logs : List (Address × Text)),
      finish table clients clients.length = some (sent, logs) ∧
      IsFirstMax (fun i => (entry clients i).message.length) clients.length best ∧
      sent.length = clients.length ∧
      (∀ i c, clients[i]? = some c →
        sent[i]? = some (Reply.mk i c.addr (if i = best then .agree else .reject))) ∧
      logs = (chosenText (entry clients best) :: sent.map responseText).flatMap (sendToLoggers table) ∧
      ∀ a, (logs.filter fun x => x.1 = a).map Prod.snd =
        (chosenText (entry clients best) :: sent.map responseText).flatMap (List.replicate (table.count a)) := by
  refine ⟨selectBest clients clients.length, _, _, finish_eq_replies table clients hpos hmsg,
    isFirstMax_firstMax _ hpos, ?_, ?_, rfl, ?_⟩
  · rw [replies, List.length_map, List.length_range]
  · intro i c hc
    obtain ⟨hi, rfl⟩ := List.getElem?_eq_some_iff.1 hc
    simp [replies, hi, reply, entry_eq_get hi, response]
  · intro a
    simp only [List.filter_flatMap, List.map_flatMap, filter_sendToLoggers]

/-- Two proposals of equal length, and a longer one in the middle of three. -/
def threeClients : List ClientData :=
  [⟨⟨⟨127, 0, 0, 1⟩, 4000⟩, "ab".toList⟩, ⟨⟨⟨127, 0, 0, 1⟩, 4001⟩, "abc".toList⟩,
    ⟨⟨⟨127, 0, 0, 1⟩, 4002⟩, "xyz".toList⟩]

theorem finish_eq_threeClients : ∃ sent logs, finish [⟨⟨127, 0, 0, 1⟩, 9000⟩] threeClients 3 = some (sent, logs) ∧
    sent[1]? = some ⟨1, ⟨⟨127, 0, 0, 1⟩, 4001⟩, .agree⟩ := by
  obtain ⟨best, sent, logs, hfinish, hbest, -, hsent, -⟩ :=
    finish_eq [⟨⟨127, 0, 0, 1⟩, 9000⟩] threeClients (by decide) (by decide)
  refine ⟨sent, logs, hfinish, ?_⟩
  obtain rfl : best = 1 := by
    match best, hbest with
    | 0, hbest => exact absurd (hbest.le 1 (by decide)) (by decide)
    | 1, _ => rfl
    | 2, hbest => exact absurd (hbest.first 1 (by decide)) (by decide)
    | n + 3, hbest => exact absurd hbest.lt (Nat.not_lt.2 (Nat.le_add_left 3 n))
  exact hsent 1 ⟨⟨⟨127, 0, 0, 1⟩, 4001⟩, "abc".toList⟩ rfl

/-! ## The steps of the server -/

variable {n : ℕ} {cfg : Config n} {s : State n}

theorem runFn_answer (cfg : Config n) (s : State n) (best k : ℕ) (hk : k ≤ n) (hpc : s.pc = .answer best 0) :
    runFn (step cfg) s (List.replicate k .go) = some { s with
      pc := .answer best k
      sent := s.sent ++ replies s.clients (response best) k
      logs := s.logs ++
        ((replies s.clients (response best) k).map responseText).flatMap (sendToLoggers cfg.table) } := by
  induction k with
  | zero =>
    rw [List.replicate_zero, runFn, ← hpc]
    simp [replies]
  | succ k ih =>
    rw [List.replicate_succ', runFn_append, ih (by omega), Option.bind_some, runFn]
    simp only [step, if_pos (Nat.lt_of_succ_le hk), Option.bind_some, runFn, replies_succ, List.append_assoc,
      List.map_append, List.flatMap_append]
    simp

/-- The messages that are recorded are within their arrays. -/
theorem short_inductive (cfg : Config n) :
    (system cfg).Inductive fun s => ∀ c ∈ s.clients, c.message.length < maxMsgLen := by
  refine ⟨?_, fun s a s' hshort hs => ?_⟩
  · rintro s rfl c hc
    cases hc
  · rcases step_change hs with ⟨-, hclients, -, -⟩ | ⟨-, -, -, -, hclients, -⟩ | ⟨-, -, -, -, hclients, -⟩ |
      ⟨-, -, -, hclients, -⟩ | ⟨-, -, -, hclients, -⟩ | ⟨-, -, -, hclients, -⟩ <;> rw [hclients]
    case receive j =>
      intro c hc
      rcases List.mem_append.1 hc with hc | hc
      · exact hshort c hc
      · rw [List.mem_singleton.1 hc]
        exact length_message_ofDatagram (cfg.addr j) (cfg.proposal j)
    all_goals exact hshort

/-- The steps of the server behind the last proposal are the two loops. -/
theorem runFn_finish (cfg : Config n) (h : (system cfg).Reachable s) (hpc : s.pc = .collect)
    (hlen : s.clients.length = n) (hpos : 0 < n) :
    runFn (step cfg) s (List.replicate (n + 2) .go) = (finish cfg.table s.clients n).map fun r =>
      { s with pc := .done, sent := s.sent ++ r.1, logs := s.logs ++ r.2 } := by
  have hfinish := finish_eq_replies cfg.table s.clients (by omega) ((short_inductive cfg).reachable h)
  rw [hlen] at hfinish
  have hgo : step cfg s .go = some { s with
      pc := .answer (selectBest s.clients n) 0
      logs := s.logs ++ sendToLoggers cfg.table (chosenText (entry s.clients (selectBest s.clients n))) } := by
    simp only [step, hpc, hlen, Nat.lt_irrefl, if_false]
  rw [hfinish, Option.map_some, List.replicate_succ, runFn, hgo, Option.bind_some, List.replicate_succ', runFn_append,
    runFn_answer cfg _ _ n (Nat.le_refl n) rfl, Option.bind_some]
  simp [runFn, step]

end V8

end Students
