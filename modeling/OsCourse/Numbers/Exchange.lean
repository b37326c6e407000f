/-
  p1 and p2 (idz os 1/9) together, with the two FIFOs between them: what is in the output file
  at the end, for every order of their steps.
-/
import OsCourse.Lib.Transition
import OsCourse.Numbers.Channel
import OsCourse.Numbers.Receiver

namespace Numbers.V9

open Text Transition System

/-! ## The programs -/

/-- The files and the memory that the two processes are given. -/
structure Setting where
  /-- the input file -/
  input : Text
  /-- how many bytes a FIFO holds; a chunk at least -/
  capacity : ℕ
  capacity_ge : chuncSize ≤ capacity
  atoi : Atoi
  usable : ℕ → ℕ
  /-- what the block `data` holds before anything is stored -/
  data : Mem
  /-- what the memory from `ans` on holds before the answer is stored -/
  heap : Mem
  /-- what `writebuf` of p1 holds before -/
  writebuf : Mem

inductive Process where
  | p1
  | p2
  deriving DecidableEq

/-- Where p1 is. -/
inductive First where
  /-- in the loop that sends the file, of which `rest` has not been read -/
  | send (rest : Text)
  /-- at `open(writechan, O_RDONLY)`, or in the loop that receives the answer -/
  | receive (r : Receiver)
  /-- ended, with this output file -/
  | done (file : Text)
  /-- ended by SIGPIPE -/
  | killed

/-- Where p2 is. -/
inductive Second where
  /-- in the loop that reads the first channel -/
  | read (s : Reading)
  /-- at `open(writechan, O_WRONLY)` -/
  | answer (length : ℕ) (text : Text)
  /-- in the loop that writes the answer -/
  | write (ans : Mem) (length offset : ℕ)
  /-- ended, or ended by SIGPIPE, after the second channel has been opened -/
  | done
  /-- ended with nothing read -/
  | exited
  /-- an access outside of a block -/
  | fault

structure State where
  first : First
  second : Second
  readchan : Text
  writechan : Text

namespace Setting
variable (e : Setting)

/-- What p2 does between the two loops. -/
def respond (s : Reading) : Option (ℕ × Text) :=
  (terminate s).bind fun s =>
    (findAllNumbers e.atoi (s.data.load 0 s.bufferSize)).bind fun arr =>
      (makeStringFromArray e.usable arr).map fun ans => (s.length, ans)

/-- The end of the reading loop. -/
def leave (s : Reading) : Second :=
  match e.respond s with
  | some (length, text) => .answer length text
  | none => .fault

/-- The memory from `ans` on. -/
def ans (text : Text) : Mem := e.heap.store 0 (text ++ [nul])

/-- The next step of p1. -/
def stepFirst (s : State) : Option State :=
  match s.first with
  | .send rest =>
    if rest = [] then some { s with first := .receive { writebuf := e.writebuf, file := [] } }
    else match s.second with
      | .read _ =>
        let piece := rest.take 128
        if s.readchan.length + piece.length ≤ e.capacity then
          some { s with first := .send (rest.drop 128), readchan := s.readchan ++ piece }
        else none
      | _ => some { s with first := .killed }
  | .receive r =>
    match s.second with
    | .write _ _ _ | .done =>
      if s.writechan ≠ [] then
        let r' := receivePiece r (s.writechan.take 128)
        some { s with first := if r'.2 then .done r'.1.file else .receive r'.1, writechan := s.writechan.drop 128 }
      else match s.second with
        | .done => some { s with first := .done r.file }
        | _ => none
    | _ => none
  | .done _ | .killed => none

/-- The next step of p2. -/
def stepSecond (s : State) : Option State :=
  match s.second with
  | .read r =>
    if s.readchan ≠ [] then
      match readPiece r (s.readchan.take chuncSize) with
      | some (r', toend) =>
        some { s with second := if toend then e.leave r' else .read r', readchan := s.readchan.drop chuncSize }
      | none => some { s with second := .fault }
    else match s.first with
      | .send _ => none
      | _ => some { s with second := if r.length = 0 then .exited else e.leave r }
  | .answer length text =>
    match s.first with
    | .receive _ => some { s with second := .write (e.ans text) length 0 }
    | _ => none
  | .write ans length offset =>
    if offset < length then
      match s.first with
      | .receive _ =>
        let bytesToWrite := if length - offset > chuncSize then chuncSize else length - offset
        if s.writechan.length + bytesToWrite ≤ e.capacity then
          some { s with second := .write ans length (offset + bytesToWrite)
                        writechan := s.writechan ++ ans.load offset bytesToWrite }
        else none
      | _ => some { s with second := .done }
    else some { s with second := .done }
  | .done | .exited | .fault => none

def step (s : State) : Process → Option State
  | .p1 => e.stepFirst s
  | .p2 => e.stepSecond s

/-- Both processes have opened the first channel. -/
def initial : State where
  first := .send e.input
  second := .read { data := e.data, bufferSize := chuncSize, length := 0 }
  readchan := []
  writechan := []

def system : System State Process := System.ofFn e.initial e.step

/-- Neither process can go on. -/
def Final (s : State) : Prop := ∀ p, e.step s p = none

end Setting

/-! ## Runs end -/

def First.rank : First → ℕ
  | send rest => 600 * rest.length + 3
  | receive _ => 2
  | done _ | killed => 0

@[simp] theorem First.rank_send (rest : Text) : (send rest).rank = 600 * rest.length + 3 := rfl

@[simp] theorem First.rank_receive (r : Receiver) : (receive r).rank = 2 := rfl

@[simp] theorem First.rank_done (file : Text) : (done file).rank = 0 := rfl

@[simp] theorem First.rank_killed : killed.rank = 0 := rfl

/-- A chunk adds 128 to `length`, and each byte of the answer is written once. -/
def Second.rank : Second → ℕ
  | read s => 2 * s.length + 300
  | answer length _ => 2 * length + 2
  | write _ length offset => 2 * (length - offset) + 1
  | done | exited | fault => 0

@[simp] theorem Second.rank_read (s : Reading) : (read s).rank = 2 * s.length + 300 := rfl

@[simp] theorem Second.rank_answer (length : ℕ) (text : Text) : (answer length text).rank = 2 * length + 2 := rfl

@[simp] theorem Second.rank_write (ans : Mem) (length offset : ℕ) :
    (write ans length offset).rank = 2 * (length - offset) + 1 := rfl

@[simp] theorem Second.rank_done : done.rank = 0 := rfl

@[simp] theorem Second.rank_exited : exited.rank = 0 := rfl

@[simp] theorem Second.rank_fault : fault.rank = 0 := rfl

def State.rank (s : State) : ℕ := s.first.rank + s.second.rank + 300 * s.readchan.length + s.writechan.length

variable {e : Setting} {s s' : State} {r r' : Reading} {piece text : Text} {length : ℕ} {toend : Bool}

theorem length_readPiece (hp : piece.length ≤ chuncSize) (h : readPiece r piece = some (r', toend)) :
    r'.length ≤ r.length + chuncSize := by
  simp only [readPiece] at h
  obtain ⟨-, h⟩ := Option.ite_none_right_eq_some.1 h
  split at h
  · next endlinePos hpos =>
    obtain ⟨-, hlt, -, -⟩ := Mem.memchr_eq_some_iff.1 hpos
    cases h
    show endlinePos + 1 ≤ r.length + chuncSize
    omega
  · cases h
    exact Nat.le_refl _

theorem length_respond (h : e.respond r = some (length, text)) : length = r.length := by
  obtain ⟨r', hr', h⟩ := Option.bind_eq_some_iff.1 h
  obtain ⟨arr, -, h⟩ := Option.bind_eq_some_iff.1 h
  obtain ⟨ans, -, h⟩ := Option.map_eq_some_iff.1 h
  rw [terminate] at hr'
  split_ifs at hr'
  cases hr'
  cases h
  rfl

theorem rank_leave (e : Setting) (r : Reading) : (e.leave r).rank ≤ 2 * r.length + 2 := by
  rw [Setting.leave]
  split
  · next h => rw [Second.rank_answer, length_respond h]
  · exact Nat.zero_le _

theorem length_drop_lt {t : Text} {n : ℕ} (hn : 0 < n) (h : t ≠ []) :
    (t.drop n).length + (t.take n).length = t.length ∧ 0 < (t.take n).length := by
  have := List.length_pos_iff.2 h
  rw [List.length_drop, List.length_take]
  omega

theorem rank_stepFirst (h : e.stepFirst s = some s') : s'.rank < s.rank := by
  unfold Setting.stepFirst at h
  cases hf : s.first with
  | send rest =>
    have hrank : s.first.rank = 600 * rest.length + 3 := by
      rw [hf]
      rfl
    rw [hf] at h
    dsimp only at h
    split at h
    · cases h
      simp only [State.rank, hrank, First.rank_receive]
      omega
    · next hrest =>
      obtain ⟨hlen, hpos⟩ := length_drop_lt (n := 128) (by decide) hrest
      split at h
      · obtain ⟨-, h⟩ := Option.ite_none_right_eq_some.1 h
        cases h
        simp only [State.rank, hrank, First.rank_send, List.length_append]
        omega
      · cases h
        simp only [State.rank, hrank, First.rank_killed]
        omega
  | receive r =>
    have hrank : s.first.rank = 2 := by
      rw [hf]
      rfl
    have hchan : ∀ (b : Bool) (r' : Receiver), s.writechan ≠ [] →
        State.rank { s with first := if b then .done r'.file else .receive r', writechan := s.writechan.drop 128 } <
          s.rank := by
      intro b r' hne
      obtain ⟨hlen, hpos⟩ := length_drop_lt (n := 128) (by decide) hne
      have hle : (if b then First.done r'.file else First.receive r').rank ≤ 2 := by
        cases b
        · exact Nat.le_refl 2
        · exact Nat.zero_le 2
      simp only [State.rank, hrank]
      omega
    have hend : ∀ file, State.rank { s with first := .done file } < s.rank := by
      intro file
      simp only [State.rank, hrank, First.rank_done]
      omega
    rw [hf] at h
    dsimp only at h
    split at h
    · split at h
      · next hne =>
        cases h
        exact hchan _ _ hne
      · split at h
        · cases h
          exact hend _
        · cases h
    · split at h
      · next hne =>
        cases h
        exact hchan _ _ hne
      · split at h
        · cases h
          exact hend _
        · cases h
    · cases h
  | done file => rw [hf] at h; cases h
  | killed => rw [hf] at h; cases h

theorem rank_stepSecond (h : e.stepSecond s = some s') : s'.rank < s.rank := by
  unfold Setting.stepSecond at h
  cases hsec : s.second with
  | read r =>
    have hrank : s.second.rank = 2 * r.length + 300 := by
      rw [hsec]
      rfl
    rw [hsec] at h
    dsimp only at h
    split at h
    · next hne =>
      obtain ⟨hlen, hpos⟩ := length_drop_lt (n := chuncSize) (by decide) hne
      split at h
      · next r' toend hr =>
        cases h
        have hr := length_readPiece (List.length_take_le _ _) hr
        have hle : (if toend then e.leave r' else Second.read r').rank ≤ 2 * r.length + 556 := by
          simp only [chuncSize] at hr
          cases toend
          · show 2 * r'.length + 300 ≤ _
            omega
          · have := rank_leave e r'
            simp only [if_true]
            omega
        simp only [State.rank, hrank]
        omega
      · cases h
        simp only [State.rank, hrank, Second.rank_fault]
        omega
    · split at h
      · cases h
      · cases h
        have hle : (if r.length = 0 then Second.exited else e.leave r).rank ≤ 2 * r.length + 2 := by
          split_ifs
          · exact Nat.zero_le _
          · exact rank_leave e r
        simp only [State.rank, hrank]
        omega
  | answer length text =>
    have hrank : s.second.rank = 2 * length + 2 := by
      rw [hsec]
      rfl
    rw [hsec] at h
    dsimp only at h
    split at h
    · cases h
      simp only [State.rank, hrank, Second.rank_write]
      omega
    · cases h
  | write ans length offset =>
    have hrank : s.second.rank = 2 * (length - offset) + 1 := by
      rw [hsec]
      rfl
    have hend : State.rank { s with second := .done } < s.rank := by
      simp only [State.rank, hrank, Second.rank_done]
      omega
    rw [hsec] at h
    dsimp only at h
    split at h
    · next hlt =>
      split at h
      · obtain ⟨-, h⟩ := Option.ite_none_right_eq_some.1 h
        cases h
        simp only [State.rank, hrank, Second.rank_write, List.length_append, Mem.length_load, chuncSize]
        split_ifs <;> omega
      · cases h
        exact hend
    · cases h
      exact hend
  | done => rw [hsec] at h; cases h
  | exited => rw [hsec] at h; cases h
  | fault => rw [hsec] at h; cases h

theorem rank_step {p : Process} (h : e.step s p = some s') : s'.rank < s.rank := by
  cases p with
  | p1 => exact rank_stepFirst h
  | p2 => exact rank_stepSecond h

/-- A run has no more steps than the rank of its first state. -/
theorem length_add_rank {tr : List (State × Process)} (h : e.system.Exec tr s) :
    tr.length + s.rank ≤ e.initial.rank := by
  induction h with
  | init h =>
    cases h
    exact Nat.le_of_eq (Nat.zero_add _)
  | snoc _ hs ih =>
    have := rank_step hs
    rw [List.length_append, List.length_singleton]
    omega

/-! ## Whole chunks -/

/-- An input of whole chunks without a NUL, with numbers that are `int`s, the answer to which
    fits into its block. -/
structure Setting.Regular (e : Setting) : Prop where
  ne : e.input ≠ []
  chunks : chuncSize ∣ e.input.length
  noNul : nul ∉ e.input
  int : ∀ w ∈ runs e.input, value w ≤ 2147483647
  room : (report e.input).length < e.usable (11 + 14 * (numbers e.input).length)

/-- p2 has read whole chunks, and goes on from `r`. -/
structure HasRead (e : Setting) (r : Reading) (pieces : List Text) : Prop where
  room : r.Room
  length : r.length = pieces.flatten.length
  full : ∀ piece ∈ pieces, piece.length = chuncSize
  loop : ∀ more, readLoop { data := e.data, bufferSize := chuncSize, length := 0 } (pieces ++ more) = readLoop r more

variable {pieces : List Text} {chan : Text}

theorem hasRead_nil (e : Setting) : HasRead e { data := e.data, bufferSize := chuncSize, length := 0 } [] where
  room := room_initial e.data
  length := rfl
  full := by simp
  loop _ := rfl

/-- What is taken from a channel with whole chunks. -/
theorem length_take_of_dvd {t : Text} (hne : t ≠ []) (hdvd : chuncSize ∣ t.length) :
    (t.take chuncSize).length = chuncSize ∧ chuncSize ∣ (t.drop chuncSize).length := by
  obtain ⟨k, hk⟩ := hdvd
  have hpos := List.length_pos_iff.2 hne
  rw [List.length_take, List.length_drop, hk]
  obtain _ | k := k
  · omega
  · refine ⟨?_, k, ?_⟩
    · simp only [chuncSize]
      omega
    · simp only [chuncSize]
      omega

/-- One more chunk. -/
theorem HasRead.read (h : HasRead e r pieces) (hlen : piece.length = chuncSize) (hnul : nul ∉ piece) :
    ∃ r', readPiece r piece = some (r', false) ∧ HasRead e r' (pieces ++ [piece]) := by
  have hload : (r.data.store r.length piece).load (r.length + chuncSize - piece.length) piece.length = piece := by
    rw [hlen, Nat.add_sub_cancel, ← hlen]
    exact Mem.load_store _ _ _
  obtain ⟨bufferSize, heq, hroom⟩ := h.room.readPiece (Nat.le_of_eq hlen) (by rwa [hload])
  refine ⟨_, heq, hroom, ?_, ?_, fun more => ?_⟩
  · rw [List.flatten_append, List.length_append, List.flatten_singleton, hlen, h.length]
  · intro p hp
    rcases List.mem_append.1 hp with hp | hp
    · exact h.full p hp
    · rw [List.mem_singleton.1 hp, hlen]
  · rw [List.append_assoc, h.loop, List.singleton_append, readLoop, heq]
    rfl

/-- **At the end of the file p2 has the answer.** -/
theorem HasRead.leave (h : HasRead e r pieces) (he : e.Regular) (hall : pieces.flatten = e.input) :
    r.length ≠ 0 ∧ e.leave r = .answer e.input.length (report e.input) := by
  have hpos := List.length_pos_iff.2 he.ne
  have hlen : r.length ≠ 0 := by
    rw [h.length, hall]
    omega
  have hne : pieces ≠ [] := by
    rintro rfl
    exact he.ne hall.symm
  have harr : (runs e.input).map e.atoi.run = numbers e.input := by
    rw [numbers]
    refine List.map_congr_left fun w hw => ?_
    obtain ⟨hwne, hdigits⟩ := mem_runs hw
    exact e.atoi.digits w hwne hdigits (he.int w hw)
  have hfound : findAllNumbers e.atoi (e.input ++ [nul]) = some (numbers e.input) := by
    rw [findAllNumbers_eq (by simp), cstr_append_cons _ _ he.noNul, harr]
  have hprocess := process_full e.atoi e.usable e.data hne h.full (hall ▸ he.noNul)
  have hroom : (answer (numbers e.input)).length < e.usable (11 + 14 * (numbers e.input).length) := he.room
  rw [hall, harr, makeStringFromArray_eq e.usable (length_fmtInt_of_found hfound), if_pos hroom] at hprocess
  have hloop : readLoop { data := e.data, bufferSize := chuncSize, length := 0 } pieces = some r := by
    have hnil := h.loop []
    rwa [List.append_nil, readLoop, if_neg hlen] at hnil
  have hrespond : e.respond r = some (e.input.length, report e.input) := by
    rw [process, receive, hloop, Option.bind_some] at hprocess
    exact hprocess
  exact ⟨hlen, by rw [Setting.leave, hrespond]⟩

/-! ## The invariant -/

/-- p1 has received `r.file`, no byte of which is a NUL, and `chan` is on its way: together the
    first `n` bytes of the answer. -/
def Received (e : Setting) (n : ℕ) (r : Receiver) (chan : Text) : Prop :=
  n ≤ e.input.length ∧ r.file ++ chan = (e.ans (report e.input)).load 0 n ∧ nul ∉ r.file

/-- The output file. -/
def Setting.output (e : Setting) : Text := (report e.input).take e.input.length

/-- The phases of a run. -/
inductive Phase (e : Setting) : State → Prop
  | send {rest : Text} {r : Reading} {pieces : List Text} {chan : Text} (h : HasRead e r pieces)
      (hinput : pieces.flatten ++ chan ++ rest = e.input) (hchan : chuncSize ∣ chan.length)
      (hrest : chuncSize ∣ rest.length) : Phase e ⟨.send rest, .read r, chan, []⟩
  | read {r : Reading} {pieces : List Text} {chan : Text} (h : HasRead e r pieces)
      (hinput : pieces.flatten ++ chan = e.input) (hchan : chuncSize ∣ chan.length) :
      Phase e ⟨.receive ⟨e.writebuf, []⟩, .read r, chan, []⟩
  | answer : Phase e ⟨.receive ⟨e.writebuf, []⟩, .answer e.input.length (report e.input), [], []⟩
  | write {r : Receiver} {offset : ℕ} {chan : Text} (h : Received e offset r chan) :
      Phase e ⟨.receive r, .write (e.ans (report e.input)) e.input.length offset, [], chan⟩
  | receive {r : Receiver} {chan : Text} (h : Received e e.input.length r chan) :
      Phase e ⟨.receive r, .done, [], chan⟩
  | done {second : Second} {readchan writechan : Text} : Phase e ⟨.done e.output, second, readchan, writechan⟩

theorem stringAt_ans (e : Setting) : (e.ans (report e.input)).StringAt 0 (report e.input) :=
  Mem.stringAt_store_nul _ _ (nul_notMem_answer _)

/-- **p1 takes a piece of the answer**; with a NUL in it it has all of the answer that is
    sent. -/
theorem Received.take {n : ℕ} {r : Receiver} (h : Received e n r chan) :
    ((receivePiece r (chan.take 128)).2 = true → (receivePiece r (chan.take 128)).1.file = e.output) ∧
      ((receivePiece r (chan.take 128)).2 = false →
        Received e n (receivePiece r (chan.take 128)).1 (chan.drop 128)) := by
  obtain ⟨hn, hfile, hnul⟩ := h
  rw [receivePiece_eq]
  constructor
  · intro hend
    have hmem : nul ∈ chan.take 128 := by simpa using hend
    have hcstr : cstr (r.file ++ chan) = (report e.input).take n := by
      rw [hfile]
      exact (stringAt_ans e).cstr_load n
    have hsplit : cstr (r.file ++ chan) = r.file ++ cstr (chan.take 128) := by
      conv_lhs => rw [← List.take_append_drop 128 chan, cstr_append_of_notMem hnul]
      rw [cstr_append_of_mem hmem]
    have hlt : (report e.input).length < n := by
      by_contra hge
      have hload := (stringAt_ans e).load_of_le (Nat.not_lt.1 hge)
      refine nul_notMem_answer (numbers e.input) (List.mem_of_mem_take (i := n) ?_)
      show nul ∈ (report e.input).take n
      rw [← hload, ← hfile]
      exact List.mem_append_right _ (List.mem_of_mem_take hmem)
    show r.file ++ cstr (chan.take 128) = e.output
    rw [← hsplit, hcstr, Setting.output, List.take_of_length_le (Nat.le_of_lt hlt),
      List.take_of_length_le (by omega)]
  · intro hend
    have hmem : nul ∉ chan.take 128 := by simpa using hend
    refine ⟨hn, ?_, ?_⟩
    · show r.file ++ cstr (chan.take 128) ++ chan.drop 128 = _
      rw [cstr_of_notMem hmem, List.append_assoc, List.take_append_drop, hfile]
    · show nul ∉ r.file ++ cstr (chan.take 128)
      rw [cstr_of_notMem hmem, List.mem_append, not_or]
      exact ⟨hnul, hmem⟩

/-- At the end of the stream p1 has the answer as far as it is sent. -/
theorem Received.output {r : Receiver} (h : Received e e.input.length r []) : r.file = e.output := by
  obtain ⟨-, hfile, hnul⟩ := h
  rw [List.append_nil] at hfile
  have hcstr := (stringAt_ans e).cstr_load e.input.length
  rw [← hfile, cstr_of_notMem hnul] at hcstr
  exact hcstr

/-! ### Steps -/

theorem Phase.init (he : e.Regular) : Phase e e.initial :=
  .send (hasRead_nil e) rfl (Nat.dvd_zero _) he.chunks

theorem Phase.stepFirst (hs : Phase e s) (h : e.stepFirst s = some s') : Phase e s' := by
  cases hs with
  | @send rest r pieces chan hread hinput hchan hrest =>
    simp only [Setting.stepFirst] at h
    split at h
    · next hnil =>
      cases h
      subst hnil
      exact .read hread (by rwa [List.append_nil] at hinput) hchan
    · next hne =>
      obtain ⟨-, h⟩ := Option.ite_none_right_eq_some.1 h
      cases h
      obtain ⟨hlen, hrest'⟩ := length_take_of_dvd hne hrest
      refine .send hread ?_ ?_ hrest'
      · rw [← hinput, List.append_assoc, List.append_assoc, List.append_assoc, List.take_append_drop]
      · rw [List.length_append]
        exact Nat.dvd_add hchan (hlen ▸ Nat.dvd_refl _)
  | read | answer => cases h
  | @write r offset chan hr =>
    simp only [Setting.stepFirst] at h
    split at h
    · cases h
      obtain ⟨hend, hmore⟩ := hr.take
      cases hnul : (receivePiece r (chan.take 128)).2 with
      | true =>
        rw [if_pos rfl, hend hnul]
        exact .done
      | false =>
        rw [if_neg Bool.false_ne_true]
        exact .write (hmore hnul)
    · cases h
  | @receive r chan hr =>
    simp only [Setting.stepFirst] at h
    split at h
    · cases h
      obtain ⟨hend, hmore⟩ := hr.take
      cases hnul : (receivePiece r (chan.take 128)).2 with
      | true =>
        rw [if_pos rfl, hend hnul]
        exact .done
      | false =>
        rw [if_neg Bool.false_ne_true]
        exact .receive (hmore hnul)
    · next hnil =>
      cases h
      rw [not_not] at hnil
      subst hnil
      rw [hr.output]
      exact .done
  | done => cases h

/-- p2 takes a chunk from the first channel. -/
theorem HasRead.take (hread : HasRead e r pieces) (hne : chan ≠ []) (hchan : chuncSize ∣ chan.length)
    (hnul : nul ∉ chan) : ∃ r', readPiece r (chan.take chuncSize) = some (r', false) ∧
      HasRead e r' (pieces ++ [chan.take chuncSize]) ∧
      (pieces ++ [chan.take chuncSize]).flatten ++ chan.drop chuncSize = pieces.flatten ++ chan ∧
      chuncSize ∣ (chan.drop chuncSize).length := by
  obtain ⟨hlen, hchan'⟩ := length_take_of_dvd hne hchan
  obtain ⟨r', hr', hread'⟩ := hread.read hlen fun hmem => hnul (List.mem_of_mem_take hmem)
  refine ⟨r', hr', hread', ?_, hchan'⟩
  rw [List.flatten_append, List.flatten_singleton, List.append_assoc, List.take_append_drop]

theorem first_stepSecond (h : e.stepSecond s = some s') : s'.first = s.first := by
  unfold Setting.stepSecond at h
  split at h
  · split at h
    · split at h
      all_goals cases h; rfl
    · split at h
      · cases h
      · cases h; rfl
  · split at h
    · cases h; rfl
    · cases h
  · split at h
    · split at h
      · obtain ⟨-, h⟩ := Option.ite_none_right_eq_some.1 h
        cases h; rfl
      · cases h; rfl
    · cases h; rfl
  all_goals cases h

theorem Phase.stepSecond (he : e.Regular) (hs : Phase e s) (h : e.stepSecond s = some s') : Phase e s' := by
  cases hs with
  | @send rest r pieces chan hread hinput hchan hrest =>
    simp only [Setting.stepSecond] at h
    split at h
    · next hne =>
      have hnul : nul ∉ chan := by
        intro hmem
        refine he.noNul ?_
        rw [← hinput]
        exact List.mem_append_left _ (List.mem_append_right _ hmem)
      obtain ⟨r', hr', hread', hflat, hchan'⟩ := hread.take hne hchan hnul
      rw [hr'] at h
      cases h
      exact .send hread' (by rw [hflat, hinput]) hchan' hrest
    · cases h
  | @read r pieces chan hread hinput hchan =>
    simp only [Setting.stepSecond] at h
    split at h
    · next hne =>
      have hnul : nul ∉ chan := by
        intro hmem
        refine he.noNul ?_
        rw [← hinput]
        exact List.mem_append_right _ hmem
      obtain ⟨r', hr', hread', hflat, hchan'⟩ := hread.take hne hchan hnul
      rw [hr'] at h
      cases h
      exact .read hread' (by rw [hflat, hinput]) hchan'
    · next hnil =>
      cases h
      rw [not_not] at hnil
      subst hnil
      obtain ⟨hlen, hleave⟩ := hread.leave he (by rwa [List.append_nil] at hinput)
      rw [if_neg hlen, hleave]
      exact .answer
  | answer =>
    cases h
    exact .write ⟨Nat.zero_le _, rfl, List.not_mem_nil⟩
  | @write r offset chan hr =>
    obtain ⟨hoff, hfile, hnul⟩ := hr
    simp only [Setting.stepSecond] at h
    split at h
    · next hlt =>
      obtain ⟨-, h⟩ := Option.ite_none_right_eq_some.1 h
      cases h
      refine .write ⟨?_, ?_, hnul⟩
      · split_ifs <;> omega
      · rw [← List.append_assoc, hfile, Mem.load_add, Nat.zero_add]
    · next hge =>
      cases h
      obtain rfl : offset = e.input.length := by omega
      exact .receive ⟨hoff, hfile, hnul⟩
  | receive => cases h
  | done =>
    obtain ⟨first, second, readchan, writechan⟩ := s'
    obtain rfl : first = .done e.output := first_stepSecond h
    exact .done

/-- **As long as p1 has not ended, one of the two can go on.** -/
theorem Phase.final (hs : Phase e s) (hf : e.Final s) : s.first = .done e.output := by
  have h1 : e.stepFirst s = none := hf .p1
  have h2 : e.stepSecond s = none := hf .p2
  have hcap := e.capacity_ge
  cases hs with
  | @send rest r pieces chan =>
    simp only [Setting.stepFirst] at h1
    simp only [Setting.stepSecond] at h2
    split at h1
    · cases h1
    · split at h1
      · cases h1
      · next hfull =>
        -- the channel is full
        have hne : chan ≠ [] := by
          rintro rfl
          have := List.length_take_le 128 rest
          simp only [chuncSize, List.length_nil] at hcap hfull
          omega
        rw [if_pos hne] at h2
        split at h2
        all_goals cases h2
  | @read r pieces chan =>
    simp only [Setting.stepSecond] at h2
    split at h2
    · split at h2
      all_goals cases h2
    · cases h2
  | answer => cases h2
  | @write r offset chan =>
    simp only [Setting.stepFirst] at h1
    dsimp only [Setting.stepSecond] at h2
    split at h1
    · cases h1
    · next hnil =>
      rw [not_not] at hnil
      subst hnil
      have hroom : ([] : Text).length + (if e.input.length - offset > chuncSize then chuncSize
          else e.input.length - offset) ≤ e.capacity := by
        rw [List.length_nil]
        split_ifs <;> omega
      by_cases hlt : offset < e.input.length
      · rw [if_pos hlt, if_pos hroom] at h2
        cases h2
      · rw [if_neg hlt] at h2
        cases h2
  | @receive r chan =>
    simp only [Setting.stepFirst] at h1
    split at h1
    all_goals cases h1
  | done => rfl

/-- **p1 and p2 together.**  If the input is made of whole chunks, without a NUL, and its numbers
    are `int`s and the report on it fits into its block, both programs end, in every order of
    their steps, and the output file has as many bytes of the report as the input has bytes. -/
theorem exchange (he : e.Regular) : (∃ n, ∀ tr s, e.system.Exec tr s → tr.length ≤ n) ∧
    ∀ s, e.system.Reachable s → e.Final s → s.first = .done ((report e.input).take e.input.length) := by
  have hphase : ∀ s, e.system.Reachable s → Phase e s := by
    intro s hs
    refine System.Inductive.reachable (S := e.system) ⟨?_, ?_⟩ hs
    · rintro _ rfl
      exact .init he
    · rintro s p s' h hs
      cases p with
      | p1 => exact h.stepFirst hs
      | p2 => exact h.stepSecond he hs
  exact ⟨⟨e.initial.rank, fun tr s h => Nat.le_of_add_right_le (length_add_rank h)⟩,
    fun s hs hf => (hphase s hs).final hf⟩

/-- One chunk with 36 numbers. -/
def oneChunk : Setting where
  input := thirtySix
  capacity := 65536
  capacity_ge := by decide
  atoi := .ofStrtol
  usable := id
  data _ := '7'
  heap _ := '7'
  writebuf _ := '7'

theorem exchange_oneChunk : (∃ n, ∀ tr s, oneChunk.system.Exec tr s → tr.length ≤ n) ∧
    ∀ s, oneChunk.system.Reachable s → oneChunk.Final s →
      s.first = .done ((report thirtySix).take thirtySix.length) :=
  exchange ⟨by decide, by decide +kernel, by decide +kernel, by decide +kernel, by decide +kernel⟩

end Numbers.V9
