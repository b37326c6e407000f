/-
  `main` of p2 (idz os 1/10): the loop that receives the file from the first queue of
  messages, and the loop that sends the answer to the second one.
-/
import OsCourse.Lib.Memory

namespace Numbers.V10

open Text

/-- `CHUNC_SIZE` -/
abbrev chuncSize : ℕ := 128

/-- The size of `msg_text` in `struct msg_buffer`. -/
abbrev msgTextSize : ℕ := 128

/-! ## Receiving -/

/-- The variables of the receiving loop: `message.msg_text`, the block, and what is known of
    it. -/
structure Receiving where
  msgText : Mem
  data : Mem
  bufferSize : ℕ
  length : ℕ

/-- What the loop does behind `strcpy`: it looks for the `'\0'` in the added bytes, and grows
    the block when it goes on. -/
def Receiving.lookForEnd (s : Receiving) (bytesRead : ℕ) : Receiving × Bool :=
  match s.data.memchr nul (s.length - bytesRead) bytesRead with
  | some endlinePos => ({ s with length := endlinePos + 1 }, true)
  | none => (if s.length ≥ s.bufferSize - 1 then { s with bufferSize := s.bufferSize * 2 } else s, false)

/-- The body of the loop for a message with the text `payload`, which is not empty, and
    whether it leaves the loop; `none` for an access outside of `msg_text` or of the block. -/
def receiveMsg (s : Receiving) (payload : Text) : Option (Receiving × Bool) :=
  let msgText := s.msgText.store 0 payload
  -- `strcpy(data + length, message.msg_text)`
  match msgText.memchr nul 0 msgTextSize with
  | none => none
  | some len =>
    let copied : Receiving :=
      { msgText := msgText
        data := s.data.store s.length (msgText.load 0 (len + 1))
        bufferSize := s.bufferSize
        length := s.length + chuncSize }
    if s.length + (len + 1) ≤ s.bufferSize ∧ copied.length ≤ s.bufferSize then some (copied.lookForEnd payload.length)
    else none

inductive Outcome where
  /-- behind the loop, with the messages that are still in the queue -/
  | ended (s : Receiving) (unread : List Text)
  /-- in `msgrcv`, with an empty queue -/
  | waiting (s : Receiving)
  /-- `exit(1)` -/
  | exited
  /-- an access outside of `msg_text` or of the block -/
  | overrun

/-- The loop, over the messages in the queue. -/
def receiveLoop : Receiving → List Text → Outcome
  | s, [] => .waiting s
  | s, payload :: payloads =>
    if payload.length = 0 then if s.length = 0 then .exited else .ended s payloads
    else
      match receiveMsg s payload with
      | none => .overrun
      | some r => if r.2 then .ended r.1 payloads else receiveLoop r.1 payloads

/-- The loop from its beginning; `leftoverMsg` and `leftoverData` are the bytes in
    `msg_text` and in the block before. -/
def receive (leftoverMsg leftoverData : Mem) (payloads : List Text) : Outcome :=
  receiveLoop { msgText := leftoverMsg, data := leftoverData, bufferSize := chuncSize, length := 0 } payloads

/-- The loop ends behind the last message, and the string at `data` is what has been sent. -/
def Arrives (leftoverMsg leftoverData : Mem) (payloads : List Text) : Prop :=
  ∃ s, receive leftoverMsg leftoverData payloads = .ended s [] ∧ s.data.StringAt 0 payloads.flatten

variable {s s' : Receiving} {r : Receiving × Bool} {leftoverMsg leftoverData : Mem}
  {payload file text : Text} {payloads rest : List Text} {i : ℕ}

/-- The variables behind `strcpy`, for the string `text` in `msg_text`. -/
def Receiving.copied (s : Receiving) (payload text : Text) : Receiving where
  msgText := s.msgText.store 0 payload
  data := s.data.store s.length (text ++ [nul])
  bufferSize := s.bufferSize
  length := s.length + chuncSize

theorem receiveMsg_eq (htext : (s.msgText.store 0 payload).StringAt 0 text) (hlen : text.length < msgTextSize)
    (hroom : s.length + chuncSize ≤ s.bufferSize) :
    receiveMsg s payload = some ((s.copied payload text).lookForEnd payload.length) := by
  have hfit : s.length + (text.length + 1) ≤ s.bufferSize := by
    have : text.length < chuncSize := hlen
    omega
  rw [receiveMsg, htext.memchr hlen]
  simp only [Nat.zero_add, htext.2]
  rw [if_pos (And.intro hfit hroom)]
  rfl

@[simp] theorem msgText_lookForEnd (s : Receiving) (n : ℕ) : (s.lookForEnd n).1.msgText = s.msgText := by
  rw [Receiving.lookForEnd]
  split
  · rfl
  · split_ifs <;> rfl

@[simp] theorem data_lookForEnd (s : Receiving) (n : ℕ) : (s.lookForEnd n).1.data = s.data := by
  rw [Receiving.lookForEnd]
  split
  · rfl
  · split_ifs <;> rfl

theorem lookForEnd_snd {n : ℕ} (hn : n ≤ s.length) :
    (s.lookForEnd n).2 = true ↔ ∃ j, s.length ≤ j + n ∧ j < s.length ∧ s.data j = nul := by
  have hmem : nul ∈ s.data.load (s.length - n) n ↔ ∃ j, s.length ≤ j + n ∧ j < s.length ∧ s.data j = nul := by
    rw [Mem.mem_load_iff]
    refine exists_congr fun j => ?_
    constructor
    · rintro ⟨hle, hlt, hnul⟩
      exact ⟨by omega, by omega, hnul⟩
    · rintro ⟨hle, hlt, hnul⟩
      exact ⟨by omega, by omega, hnul⟩
  rw [← hmem, Receiving.lookForEnd]
  split
  · next endlinePos hpos =>
    refine iff_of_true rfl ?_
    by_contra hno
    rw [Mem.memchr_eq_none_iff.2 hno] at hpos
    cases hpos
  · next hpos => exact iff_of_false (by simp) (Mem.memchr_eq_none_iff.1 hpos)

theorem length_lookForEnd {n : ℕ} (h : (s.lookForEnd n).2 = false) : (s.lookForEnd n).1.length = s.length := by
  rw [Receiving.lookForEnd] at h ⊢
  split at h
  · cases h
  · split_ifs <;> rfl

theorem bufferSize_lookForEnd {n : ℕ} (h : (s.lookForEnd n).2 = false) : (s.lookForEnd n).1.bufferSize =
    if s.length ≥ s.bufferSize - 1 then s.bufferSize * 2 else s.bufferSize := by
  rw [Receiving.lookForEnd] at h ⊢
  split at h
  · cases h
  · split_ifs <;> rfl

/-- A message is received only if there is a NUL in `msg_text`. -/
theorem exists_text (h : receiveMsg s payload = some r) : ∃ text : Text, text.length < msgTextSize ∧
    (s.msgText.store 0 payload).StringAt 0 text ∧ r = (s.copied payload text).lookForEnd payload.length := by
  have hr := h
  rw [receiveMsg] at h
  split at h
  · cases h
  next len hlen =>
    obtain ⟨-, hlt, -, -⟩ := Mem.memchr_eq_some_iff.1 hlen
    have htext := Mem.stringAt_of_memchr hlen
    have htextlen : ((s.msgText.store 0 payload).load 0 (len - 0)).length < msgTextSize := by
      rw [Mem.length_load]
      omega
    dsimp only at h
    split_ifs at h with hfit
    rw [receiveMsg_eq htext htextlen hfit.2, Option.some.injEq] at hr
    exact ⟨_, htextlen, htext, hr.symm⟩

/-- The string at `data` stays when the loop is behind it. -/
theorem stringAt_receiveLoop (h : receiveLoop s payloads = .ended s' rest) (hlen : file.length < s.length)
    (hdata : s.data.StringAt 0 file) : s'.data.StringAt 0 file := by
  induction payloads generalizing s with
  | nil => cases h
  | cons payload payloads ih =>
    rw [receiveLoop] at h
    split at h
    · split at h <;> cases h
      exact hdata
    · split at h
      · cases h
      next r hr =>
        obtain ⟨text, -, -, rfl⟩ := exists_text hr
        have hstored : (s.copied payload text).data.StringAt 0 file := hdata.store_of_gt (by omega)
        rw [← data_lookForEnd (s.copied payload text) payload.length] at hstored
        split at h
        · cases h
          exact hstored
        next hgo =>
          refine ih h ?_ hstored
          rw [length_lookForEnd (by simpa using hgo)]
          exact Nat.lt_add_right chuncSize hlen

/-! ## When the file arrives -/

/-- There is a NUL in what the loop looks at for message `i`, of `b` bytes, when the texts in
    `msg_text` have `n` bytes: that of the text, or one that stood in the block before. -/
def Stops (leftoverData : Mem) (n i b : ℕ) : Prop :=
  chuncSize ≤ n + b ∨ ∃ j, chuncSize * (i + 1) ≤ j + b ∧ j < chuncSize * (i + 1) ∧ leftoverData j = nul

/-- The variables before message `i`, when the loop has not ended. -/
structure Before (leftoverData : Mem) (i : ℕ) (s : Receiving) : Prop where
  length : s.length = chuncSize * i
  rest : ∀ j, chuncSize * i ≤ j → s.data j = leftoverData j
  room : ∃ k, s.bufferSize = chuncSize * k ∧ i < k

theorem Before.room_le (h : Before leftoverData i s) : s.length + chuncSize ≤ s.bufferSize := by
  obtain ⟨k, hk, hlt⟩ := h.room
  rw [h.length, hk]
  exact Nat.mul_le_mul_left chuncSize hlt

theorem stringAt_copied (s : Receiving) (payload : Text) (htext : nul ∉ text) :
    (s.copied payload text).data.StringAt s.length text :=
  Mem.stringAt_store_nul s.data s.length htext

theorem data_copied_of_ge (h : Before leftoverData i s) {j : ℕ} (hj : s.length + text.length < j) :
    (s.copied payload text).data j = leftoverData j := by
  refine (Mem.store_of_ge (by rw [List.length_append, List.length_singleton]; omega)).trans (h.rest j ?_)
  rw [← h.length]
  omega

/-- The loop leaves at a message when there is a NUL in the window. -/
theorem lookForEnd_copied (payload : Text) (h : Before leftoverData i s) (htext : nul ∉ text)
    (hsize : payload.length ≤ chuncSize) (hlen : text.length < chuncSize) :
    ((s.copied payload text).lookForEnd payload.length).2 = true ↔ Stops leftoverData text.length i payload.length := by
  have hstored := stringAt_copied s payload htext
  have hend : (s.copied payload text).length = s.length + chuncSize := rfl
  rw [lookForEnd_snd (by rw [hend]; omega), Stops, hend, h.length, Nat.mul_succ]
  constructor
  · rintro ⟨j, hle, hlt, hnul⟩
    by_cases hj : s.length + text.length < j
    · exact Or.inr ⟨j, hle, hlt, by rwa [← data_copied_of_ge h hj]⟩
    · left
      rw [h.length] at hj
      omega
  · rintro (hle | ⟨j, hle, hlt, hnul⟩)
    · refine ⟨s.length + text.length, ?_, ?_, hstored.nul⟩
      · rw [h.length]
        omega
      · rw [h.length]
        omega
    · by_cases hj : s.length + text.length < j
      · exact ⟨j, hle, hlt, by rwa [data_copied_of_ge h hj]⟩
      · refine ⟨s.length + text.length, ?_, ?_, hstored.nul⟩
        · omega
        · rw [h.length]
          omega

theorem Before.next (h : Before leftoverData i s) (hlen : text.length < chuncSize)
    (hgo : ((s.copied payload text).lookForEnd payload.length).2 = false) :
    Before leftoverData (i + 1) ((s.copied payload text).lookForEnd payload.length).1 := by
  have hend : (s.copied payload text).length = chuncSize * (i + 1) := by
    rw [Nat.mul_succ, ← h.length]
    rfl
  refine ⟨(length_lookForEnd hgo).trans hend, fun j hj => ?_, ?_⟩
  · rw [data_lookForEnd]
    refine data_copied_of_ge h ?_
    rw [Nat.mul_succ] at hj
    rw [h.length]
    omega
  · obtain ⟨k, hk, hlt⟩ := h.room
    rw [bufferSize_lookForEnd hgo, hend]
    have hsize : (s.copied payload text).bufferSize = chuncSize * k := hk
    rw [hsize]
    split_ifs with hfull
    · exact ⟨k * 2, Nat.mul_assoc chuncSize k 2, by omega⟩
    · have hroom : chuncSize * (i + 1) < chuncSize * k := by omega
      exact ⟨k, rfl, Nat.lt_of_mul_lt_mul_left hroom⟩

theorem receiveLoop_cons (h : Before leftoverData i s) (htext : (s.msgText.store 0 payload).StringAt 0 text)
    (hlen : text.length < chuncSize) (hpos : 0 < payload.length) : receiveLoop s (payload :: payloads) =
      if ((s.copied payload text).lookForEnd payload.length).2 then
        .ended ((s.copied payload text).lookForEnd payload.length).1 payloads
      else receiveLoop ((s.copied payload text).lookForEnd payload.length).1 payloads := by
  rw [receiveLoop, if_neg (by omega), receiveMsg_eq htext hlen h.room_le]

theorem forall_getElem?_cons {α : Type} {a : α} {l : List α} {P : ℕ → α → Prop} :
    (∀ j b, (a :: l)[j]? = some b → P j b) ↔ P 0 a ∧ ∀ j b, l[j]? = some b → P (j + 1) b := by
  constructor
  · intro h
    exact ⟨h 0 a rfl, fun j b hb => h (j + 1) b hb⟩
  · rintro ⟨hhead, htail⟩ j b hb
    cases j with
    | zero => exact Option.some.inj hb ▸ hhead
    | succ j => exact htail j b hb

/-- The loop from message `i` on, when `msg_text` holds a string that is as long as the file:
    it ends behind the last message exactly if there is a NUL in the window then, and not
    before. -/
theorem receiveLoop_iff (payload : Text) (payloads : List Text) (h : Before leftoverData i s)
    (hlen : file.length < chuncSize) (htext : (s.msgText.store 0 payload).StringAt 0 text)
    (heq : text.length = file.length)
    (hsize : ∀ p ∈ payload :: payloads, 0 < p.length ∧ p.length ≤ file.length ∧ nul ∉ p) :
    (∃ s', receiveLoop s (payload :: payloads) = .ended s' []) ↔
      ∀ j p, (payload :: payloads)[j]? = some p →
        (Stops leftoverData file.length (i + j) p.length ↔ j + 1 = (payload :: payloads).length) := by
  induction payloads generalizing i s payload text with
  | nil =>
    obtain ⟨hpos, hle, -⟩ := hsize payload List.mem_cons_self
    have hstops := lookForEnd_copied payload h htext.1 (by omega) (by omega)
    rw [receiveLoop_cons h htext (by omega) hpos, forall_getElem?_cons, ← heq, Nat.add_zero, ← hstops]
    split_ifs with hend
    · simp [hend]
    · simp [hend, receiveLoop]
  | cons next payloads ih =>
    obtain ⟨hpos, hle, -⟩ := hsize payload List.mem_cons_self
    have hstops := lookForEnd_copied payload h htext.1 (by omega) (by omega)
    rw [receiveLoop_cons h htext (by omega) hpos, forall_getElem?_cons, Nat.add_zero, ← heq, ← hstops, heq]
    split_ifs with hend
    · simp [hend]
    · have hbefore := h.next (by omega : text.length < chuncSize) (by simpa using hend)
      obtain ⟨-, hnext, hnul⟩ := hsize next (by simp)
      have htext' : (((s.copied payload text).lookForEnd payload.length).1.msgText.store 0 next).StringAt 0
          (next ++ text.drop next.length) := by
        rw [msgText_lookForEnd]
        exact htext.store_of_le hnul (by omega)
      rw [ih next hbefore htext' ?_ fun p hp => hsize p (List.mem_cons_of_mem _ hp)]
      · simp [hend, Nat.add_assoc, Nat.add_comm 1]
      · rw [List.length_append, List.length_drop]
        omega

theorem before_zero (leftoverMsg leftoverData : Mem) : Before leftoverData 0
    { msgText := leftoverMsg, data := leftoverData, bufferSize := chuncSize, length := 0 } :=
  ⟨rfl, fun _ _ => rfl, 1, rfl, Nat.one_pos⟩

/-- When the loop has ended, the string at `data` is the one that `msg_text` held with the
    first message. -/
theorem stringAt_receive (htext : (leftoverMsg.store 0 payload).StringAt 0 text) (hlen : text.length < chuncSize)
    (hpos : 0 < payload.length) (h : receive leftoverMsg leftoverData (payload :: payloads) = .ended s' rest) :
    s'.data.StringAt 0 text := by
  have hdata := stringAt_copied
    { msgText := leftoverMsg, data := leftoverData, bufferSize := chuncSize, length := 0 } payload htext.1
  rw [← data_lookForEnd _ payload.length] at hdata
  rw [receive, receiveLoop_cons (before_zero leftoverMsg leftoverData) htext hlen hpos] at h
  split_ifs at h with hend
  · cases h
    exact hdata
  · refine stringAt_receiveLoop h ?_ hdata
    rw [length_lookForEnd (by simpa using hend)]
    exact Nat.lt_add_left 0 hlen

/-- **When the file arrives**: it is shorter than a chunk, `msg_text` held the rest of the file
    as a string behind the first message, and there is a NUL in the window at the last message
    and at no other. -/
theorem arrives_iff (leftoverMsg leftoverData : Mem) (payload : Text) (payloads : List Text)
    (hsize : ∀ p ∈ payload :: payloads, 1 ≤ p.length ∧ p.length ≤ 128) (hnul : ∀ p ∈ payload :: payloads, nul ∉ p) :
    Arrives leftoverMsg leftoverData (payload :: payloads) ↔
      leftoverMsg.StringAt payload.length payloads.flatten ∧ (payload :: payloads).flatten.length < 128 ∧
        ∀ i p, (payload :: payloads)[i]? = some p →
          (Stops leftoverData (payload :: payloads).flatten.length i p.length ↔
            i + 1 = (payload :: payloads).length) := by
  obtain ⟨hpos, -⟩ := hsize payload List.mem_cons_self
  have hstring := Mem.stringAt_store_append (m := leftoverMsg) (a := 0) (u := payloads.flatten)
    (hnul payload List.mem_cons_self)
  rw [Nat.zero_add, ← List.flatten_cons] at hstring
  have hpieces : ∀ p ∈ payload :: payloads,
      0 < p.length ∧ p.length ≤ (payload :: payloads).flatten.length ∧ nul ∉ p := by
    intro p hp
    exact ⟨(hsize p hp).1, (List.sublist_flatten_of_mem hp).length_le, hnul p hp⟩
  have hloop := fun hlen htext =>
    receiveLoop_iff payload payloads (before_zero leftoverMsg leftoverData) hlen htext rfl hpieces
  simp only [Nat.zero_add] at hloop
  constructor
  · rintro ⟨s', hended, hfile⟩
    have hcons := hended
    rw [receive, receiveLoop, if_neg (by omega)] at hcons
    split at hcons
    · cases hcons
    next r hr =>
      obtain ⟨text, hlen, htext, -⟩ := exists_text hr
      obtain rfl := (stringAt_receive htext hlen hpos hended).unique hfile
      exact ⟨hstring.1 htext, hlen, (hloop hlen htext).1 ⟨s', hended⟩⟩
  · rintro ⟨hleft, hlen, hstops⟩
    have htext := hstring.2 hleft
    obtain ⟨s', hended⟩ := (hloop hlen htext).2 hstops
    exact ⟨s', hended, stringAt_receive htext hlen hpos hended⟩

/-- A line of 64 digits, and zeros in `msg_text` before. -/
theorem arrives_line : Arrives (fun _ => nul) (fun _ => '7') [List.replicate 64 '7'] := by
  have hnul : ∀ p ∈ [List.replicate 64 '7'], nul ∉ p := by
    intro p hp
    rw [List.mem_singleton.1 hp]
    exact fun hmem => absurd (List.eq_of_mem_replicate hmem) (by decide)
  refine (arrives_iff (fun _ => nul) (fun _ => '7') (List.replicate 64 '7') [] (by decide) hnul).2
    ⟨by decide, by decide, fun i p hp => ?_⟩
  cases i with
  | zero =>
    obtain rfl := Option.some.inj hp
    exact iff_of_true (Or.inl (by decide)) rfl
  | succ i => cases hp

/-- A file of one digit: the loop waits for a second message. -/
theorem not_arrives_digit : ¬ Arrives (fun _ => nul) (fun _ => '7') [['5']] := by
  rintro ⟨s', hended, -⟩
  have htext : (Mem.store (fun _ => nul) 0 ['5']).StringAt 0 ['5'] := by decide
  have hstops := (receiveLoop_iff ['5'] [] (before_zero (fun _ => nul) (fun _ => '7')) (by decide) htext rfl
    (by decide)).1 ⟨s', hended⟩ 0 ['5'] rfl
  rcases hstops.2 rfl with hle | ⟨j, -, -, hnul⟩
  · exact absurd hle (by decide)
  · exact absurd (show '7' = nul from hnul) (by decide)

/-! ## Sending -/

inductive Sending where
  /-- behind the loop, with the texts of the messages that have been sent -/
  | ended (sent : List Text)
  /-- still in the loop -/
  | running (sent : List Text)
  /-- `exit(1)` -/
  | exited
  /-- `strcpy` has written behind `msg_text` -/
  | overrun

/-- The loop from `offset` on, for at most `fuel` messages, when `sent` have been sent.  Call
    `k` of `msgsnd` returns `msgsnd k`, and `leftover k` are the bytes in `message` before the
    message is made. -/
def sendLoop (ans : Mem) (length : ℕ) (msgsnd : ℕ → ℤ) (leftover : ℕ → Mem) : ℕ → ℕ → List Text → Sending
  | 0, offset, sent => if offset < length then .running sent else .ended sent
  | fuel + 1, offset, sent =>
    if offset < length then
      -- `strcpy(message.msg_text, ans + offset)`
      match ans.memchr nul offset msgTextSize with
      | none => .overrun
      | some endPos =>
        let msgText := (leftover sent.length).store 0 (ans.load offset (endPos - offset + 1))
        let bytesWritten := msgsnd sent.length
        if bytesWritten = -1 then .exited
        else
          sendLoop ans length msgsnd leftover fuel (offset + bytesWritten.toNat)
            (sent ++ [msgText.load 0 msgTextSize])
    else .ended sent

/-- The loop ends, and what has been sent is the answer up to its NUL. -/
def Sent (ans : Mem) (length : ℕ) (msgsnd : ℕ → ℤ) (leftover : ℕ → Mem) (answer : Text) : Prop :=
  ∃ fuel sent, sendLoop ans length msgsnd leftover fuel 0 [] = .ended sent ∧ cstr sent.flatten = answer

variable {ans : Mem} {length : ℕ} {msgsnd : ℕ → ℤ} {leftover : ℕ → Mem} {answer : Text}

/-- One message: it holds the whole answer, and the offset stays. -/
theorem sendLoop_succ (hans : ans.StringAt 0 answer) (hlen : answer.length < msgTextSize) (hlength : 0 < length)
    (hmsgsnd : ∀ k, msgsnd k = 0) (fuel : ℕ) (sent : List Text) :
    sendLoop ans length msgsnd leftover (fuel + 1) 0 sent = sendLoop ans length msgsnd leftover fuel 0
      (sent ++ [((leftover sent.length).store 0 (answer ++ [nul])).load 0 msgTextSize]) := by
  rw [sendLoop, if_pos hlength, hans.memchr hlen]
  simp only [Nat.zero_add, Nat.sub_zero, hans.2, hmsgsnd, Int.toNat_zero]
  rw [if_neg (by decide)]

/-- The first message holds the whole answer. -/
theorem cstr_msgText (m : Mem) (hnul : nul ∉ answer) (hlen : answer.length < msgTextSize) :
    cstr ((m.store 0 (answer ++ [nul])).load 0 msgTextSize) = answer := by
  rw [(Mem.stringAt_store_nul m 0 hnul).cstr_load, List.take_of_length_le (by omega)]

/-- The loop does not end: it writes behind `msg_text`, or sends the whole answer again and
    again. -/
theorem sendLoop_of_zero (hans : ans.StringAt 0 answer) (hlength : 0 < length) (hmsgsnd : ∀ k, msgsnd k = 0)
    (fuel : ℕ) (sent : List Text) : sendLoop ans length msgsnd leftover fuel 0 sent = .overrun ∨
      ∃ more, sendLoop ans length msgsnd leftover fuel 0 sent = .running (sent ++ more) ∧ more.length = fuel ∧
        ∀ msgText ∈ more, cstr msgText = answer := by
  induction fuel generalizing sent with
  | zero =>
    refine Or.inr ⟨[], ?_, rfl, by simp⟩
    rw [sendLoop, if_pos hlength, List.append_nil]
  | succ fuel ih =>
    by_cases hlen : answer.length < msgTextSize
    · rw [sendLoop_succ hans hlen hlength hmsgsnd]
      rcases ih (sent ++ [((leftover sent.length).store 0 (answer ++ [nul])).load 0 msgTextSize]) with
        h | ⟨more, h, hmore, hcstr⟩
      · exact Or.inl h
      · rw [List.append_assoc] at h
        refine Or.inr ⟨_, h, by simp [hmore], fun msgText hmem => ?_⟩
        rcases List.mem_cons.1 hmem with rfl | hmem
        · exact cstr_msgText _ hans.1 hlen
        · exact hcstr msgText hmem
    · left
      rw [sendLoop, if_pos hlength]
      have hnone : ans.memchr nul 0 msgTextSize = none := by
        rw [Mem.memchr_eq_none_iff, hans.load_of_le (by omega)]
        exact fun hmem => hans.1 (List.mem_of_mem_take hmem)
      rw [hnone]

/-- **The answer is never sent**: `msgsnd` returns 0, so that the offset stays where it is. -/
theorem not_sent (ans : Mem) (length : ℕ) (msgsnd : ℕ → ℤ) (leftover : ℕ → Mem) (answer : Text)
    (hans : ans.StringAt 0 answer) (hlength : 0 < length) (hmsgsnd : ∀ k, msgsnd k = 0) :
    ¬ Sent ans length msgsnd leftover answer := by
  rintro ⟨fuel, sent, hended, -⟩
  rcases sendLoop_of_zero hans hlength hmsgsnd fuel [] with h | ⟨more, h, -⟩
  · cases hended.symm.trans h
  · cases hended.symm.trans h

/-- The memory of the answer to a file without numbers. -/
def emptyAnswer : Mem := Mem.store (fun _ => '?') 0 ("there are 0 numbers: ".toList ++ [nul])

theorem not_sent_empty : ¬ Sent emptyAnswer 129 (fun _ => 0) (fun _ _ => '?') "there are 0 numbers: ".toList :=
  not_sent _ _ _ _ _ (by decide) (by decide) fun _ => rfl

/-- An answer of one letter is sent whole, and then again, and again. -/
theorem not_sent_letter : ¬ Sent (Mem.store (fun _ => nul) 0 ['a']) 1 (fun _ => 0) (fun _ _ => nul) ['a'] := by
  rintro ⟨fuel, sent, hended, -⟩
  have hans : (Mem.store (fun _ => nul) 0 ['a']).StringAt 0 ['a'] := by decide
  rcases sendLoop_of_zero hans Nat.one_pos (fun _ => rfl) fuel [] with h | ⟨more, h, -⟩
  · cases hended.symm.trans h
  · cases hended.symm.trans h

end Numbers.V10
