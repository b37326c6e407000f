/-
  The number extractor (idz os 1/4): the three processes of `main` and the two
  pipes between them, under any interleaving.  A run ends after at most twelve
  steps; what the file holds then is a function of the input and of what the
  local buffer `buf` held before.
-/
import OsCourse.Lib.Traces
import OsCourse.Numbers.Extract

namespace Numbers

open Text Transition System

/-- The size of `readbuf`, `buf` and `writebuf`. -/
abbrev bufSize : ℕ := 5000

/-- What `main` starts from: the file to read, the bytes that the local buffers happen
    to hold, and `malloc`. -/
structure Env where
  file : Text
  buf : Vector Char bufSize
  writebuf : Vector Char bufSize
  /-- how many bytes can be written to the block that `malloc(n)` returns -/
  usable : ℕ → ℕ

/-- Where the first process is. -/
inductive First where
  /-- before `read(test_fd, readbuf, sizeof(readbuf))` -/
  | read
  /-- before `write(read_chan[1], readbuf, bytes_read)` -/
  | write (readbuf : Text)
  /-- before `close(read_chan[1])` -/
  | close
  /-- before `return 0` -/
  | ret
  | done
  deriving DecidableEq

/-- Where the second process is. -/
inductive Second where
  /-- before `close(read_chan[1])` -/
  | close
  /-- before `read(read_chan[0], buf, sizeof(buf))` -/
  | read
  /-- before `find_all_numbers(buf, &cnt)` -/
  | work (buf : Text)
  /-- before `write(write_chan[1], ans, strlen(ans))` -/
  | write (ans : Text)
  /-- before `close(write_chan[1])` -/
  | closeWrite
  | done
  /-- after an access outside of an array -/
  | fault
  deriving DecidableEq

/-- Where the third process is. -/
inductive Third where
  /-- before `close(write_chan[1])` -/
  | close
  /-- before `read(write_chan[0], writebuf, sizeof(writebuf))` -/
  | read
  /-- before `creat(to, 0666)` and `write(fd, writebuf, bytes_read)` -/
  | create (writebuf : Text) (bytesRead : ℕ)
  | done
  deriving DecidableEq

structure State where
  first : First
  second : Second
  third : Third
  readChan : Text
  writeChan : Text
  /-- the file `to`, when it has been written -/
  output : Option Text
  deriving DecidableEq

/-- Some process has not closed `read_chan[1]`.  The third one never does. -/
def State.readChanOpen (s : State) : Bool :=
  (match s.first with | .ret | .done => false | _ => true) || s.second == .close || s.third != .done

/-- Some process has not closed `write_chan[1]`.  The first one never does. -/
def State.writeChanOpen (s : State) : Bool :=
  s.first != .done || (match s.second with | .done | .fault => false | _ => true) || s.third == .close

/-- `read` of at most `bufSize` bytes from a pipe, and what is left in it.  On an empty
    pipe it blocks as long as somebody could write. -/
def pipeRead (pipe : Text) (isOpen : Bool) : Option (Text × Text) :=
  if pipe = [] ∧ isOpen then none else some (pipe.take bufSize, pipe.drop bufSize)

/-- A buffer after a read. -/
def overwrite (buf : Vector Char bufSize) (bytes : Text) : Text := bytes ++ buf.toList.drop bytes.length

inductive Process where
  | first
  | second
  | third
  deriving DecidableEq

variable (e : Env)

/-- A step of one of the three processes. -/
def step (s : State) : Process → Option State
  | .first =>
    match s.first with
    | .read => some { s with first := .write (e.file.take bufSize) }
    | .write readbuf => some { s with first := .close, readChan := s.readChan ++ readbuf }
    | .close => some { s with first := .ret }
    | .ret => some { s with first := .done }
    | .done => none
  | .second =>
    match s.second with
    | .close => some { s with second := .read }
    | .read =>
      (pipeRead s.readChan s.readChanOpen).map fun r =>
        { s with second := .work (overwrite e.buf r.1), readChan := r.2 }
    | .work buf =>
      match (findAllNumbers buf).bind (makeStringFromArray e.usable) with
      | some ans => some { s with second := .write ans }
      | none => some { s with second := .fault }
    | .write ans => some { s with second := .closeWrite, writeChan := s.writeChan ++ ans }
    | .closeWrite => some { s with second := .done }
    | .done | .fault => none
  | .third =>
    match s.third with
    | .close => some { s with third := .read }
    | .read =>
      (pipeRead s.writeChan s.writeChanOpen).map fun r =>
        { s with third := .create (overwrite e.writebuf r.1) r.1.length, writeChan := r.2 }
    | .create writebuf bytesRead => some { s with third := .done, output := some (writebuf.take bytesRead) }
    | .done => none

/-- After the two calls of `fork`. -/
def initial : State where
  first := .read
  second := .close
  third := .close
  readChan := []
  writeChan := []
  output := none

/-- The three processes under any interleaving. -/
def system : System State Process := System.ofFn initial (step e)

/-- No process can go on. -/
def Final (s : State) : Prop := ∀ p, step e s p = none

/-! ## Runs are short -/

def First.rank : First → ℕ
  | .read => 4
  | .write _ => 3
  | .close => 2
  | .ret => 1
  | .done => 0

def Second.rank : Second → ℕ
  | .close => 5
  | .read => 4
  | .work _ => 3
  | .write _ => 2
  | .closeWrite => 1
  | .done | .fault => 0

def Third.rank : Third → ℕ
  | .close => 3
  | .read => 2
  | .create _ _ => 1
  | .done => 0

/-- How many steps there are at most from here. -/
def State.rank (s : State) : ℕ := s.first.rank + s.second.rank + s.third.rank

variable {e}

theorem rank_step {s s' : State} {p : Process} (h : step e s p = some s') : s'.rank < s.rank := by
  cases p with
  | first =>
    simp only [step] at h
    split at h
    · next hpc => cases h; simp only [State.rank, hpc, First.rank]; omega
    · next hpc => cases h; simp only [State.rank, hpc, First.rank]; omega
    · next hpc => cases h; simp only [State.rank, hpc, First.rank]; omega
    · next hpc => cases h; simp only [State.rank, hpc, First.rank]; omega
    · cases h
  | second =>
    simp only [step] at h
    split at h
    · next hpc => cases h; simp only [State.rank, hpc, Second.rank]; omega
    · next hpc =>
      obtain ⟨r, -, rfl⟩ := Option.map_eq_some_iff.1 h
      simp only [State.rank, hpc, Second.rank]; omega
    · next hpc =>
      split at h <;> (cases h; simp only [State.rank, hpc, Second.rank]; omega)
    · next hpc => cases h; simp only [State.rank, hpc, Second.rank]; omega
    · next hpc => cases h; simp only [State.rank, hpc, Second.rank]; omega
    · cases h
    · cases h
  | third =>
    simp only [step] at h
    split at h
    · next hpc => cases h; simp only [State.rank, hpc, Third.rank]; omega
    · next hpc =>
      obtain ⟨r, -, rfl⟩ := Option.map_eq_some_iff.1 h
      simp only [State.rank, hpc, Third.rank]; omega
    · next hpc => cases h; simp only [State.rank, hpc, Third.rank]; omega
    · cases h

/-- **Every run ends after at most twelve steps.** -/
theorem length_add_rank {tr : List (State × Process)} {s : State} (h : (system e).Exec tr s) :
    tr.length + s.rank ≤ 12 := by
  induction h with
  | init hi => rw [show _ = initial from hi]; decide
  | snoc _ hs ih =>
    have := rank_step hs
    rw [List.length_append, List.length_singleton]; omega

/-- Every reachable state leads to a final one. -/
theorem exists_final {s : State} (h : (system e).Reachable s) :
    ∃ s', (system e).Reachable s' ∧ Final e s' := by
  obtain ⟨tr, s', hst, hf⟩ := h.exists_steps (E := Final e) State.rank fun s _ hf => by
    obtain ⟨p, hp⟩ := not_forall.1 hf
    obtain ⟨s', hs⟩ := Option.ne_none_iff_exists'.1 hp
    exact ⟨p, s', hs, rank_step hs⟩
  exact ⟨s', h.steps hst, hf⟩

/-! ## What a run computes -/

/-- What the first process reads. -/
def Env.data (e : Env) : Text := e.file.take bufSize

/-- The answer of the second process; `none` for a fault. -/
def Env.solution (e : Env) : Option Text :=
  (findAllNumbers (overwrite e.buf e.data)).bind (makeStringFromArray e.usable)

/-- What the third process writes. -/
def Env.result (e : Env) : Text := (e.solution.getD []).take bufSize

/-- The third process has not read yet. -/
def Waits (s : State) : Prop := (s.third = .close ∨ s.third = .read) ∧ s.output = none

/-- The third process gets the whole solution, or has got it. -/
def Stored (e : Env) (s : State) : Prop :=
  (Waits s ∧ s.writeChan = e.solution.getD []) ∨
    (∃ writebuf n, s.third = .create writebuf n ∧ writebuf.take n = e.result ∧ s.output = none) ∨
      (s.third = .done ∧ s.output = some e.result)

/-- The second process has not written yet. -/
def Quiet (s : State) : Prop := Waits s ∧ s.writeChan = []

/-- The invariant: what is known at each place of the second process. -/
def Inv (e : Env) (s : State) : Prop :=
  (∀ readbuf, s.first = .write readbuf → readbuf = e.data) ∧
    match s.second with
    | .close | .read =>
      Quiet s ∧ s.readChan = match s.first with | .read | .write _ => [] | _ => e.data
    | .work buf => Quiet s ∧ e.data ≠ [] ∧ buf = overwrite e.buf e.data
    | .write ans => Quiet s ∧ e.data ≠ [] ∧ e.solution = some ans
    | .closeWrite | .done => Stored e s ∧ e.data ≠ [] ∧ e.solution.isSome
    | .fault => Stored e s ∧ e.data ≠ [] ∧ e.solution = none

theorem inv_initial (e : Env) : Inv e initial :=
  ⟨fun _ h => (by cases h), ⟨⟨.inl rfl, rfl⟩, rfl⟩, rfl⟩

theorem pipeRead_eq_some {pipe : Text} {isOpen : Bool} {r : Text × Text} (h : pipeRead pipe isOpen = some r) :
    (pipe ≠ [] ∨ isOpen = false) ∧ r.1 = pipe.take bufSize := by
  unfold pipeRead at h
  split_ifs at h with hb
  obtain rfl := Option.some.inj h
  refine ⟨?_, rfl⟩
  by_cases hp : pipe = []
  · exact .inr (by simpa [hp] using hb)
  · exact .inl hp

theorem data_length (e : Env) : e.data.length ≤ bufSize := List.length_take_le _ _

theorem take_data (e : Env) : e.data.take bufSize = e.data := List.take_of_length_le (data_length e)

/-- A step of the first process. -/
theorem Inv.first {s s' : State} (h : Inv e s) (hs : step e s .first = some s') : Inv e s' := by
  obtain ⟨hw, h⟩ := h
  simp only [step] at hs
  split at hs
  · next hpc =>
    cases hs
    refine ⟨fun readbuf hr => (First.write.inj hr).symm, ?_⟩
    revert h
    cases s.second <;> simp only [hpc] <;> exact id
  · next readbuf hpc =>
    cases hs
    refine ⟨fun _ hr => (by cases hr), ?_⟩
    obtain rfl := hw readbuf hpc
    revert h
    cases s.second <;> simp only [hpc] <;> first
      | exact id
      | rintro ⟨hq, hr⟩; exact ⟨hq, by rw [hr]; rfl⟩
  · next hpc =>
    cases hs
    refine ⟨fun _ hr => (by cases hr), ?_⟩
    revert h
    cases s.second <;> simp only [hpc] <;> exact id
  · next hpc =>
    cases hs
    refine ⟨fun _ hr => (by cases hr), ?_⟩
    revert h
    cases s.second <;> simp only [hpc] <;> exact id
  · cases hs

/-- A step of the second process. -/
theorem Inv.second {s s' : State} (h : Inv e s) (hs : step e s .second = some s') : Inv e s' := by
  obtain ⟨hw, h⟩ := h
  simp only [step] at hs
  split at hs
  · next hpc =>
    cases hs
    rw [hpc] at h
    exact ⟨hw, h⟩
  · next hpc =>
    -- the pipe holds what the first process has read, unless it is still to write
    obtain ⟨r, hr, rfl⟩ := Option.map_eq_some_iff.1 hs
    rw [hpc] at h
    obtain ⟨hq, hc⟩ := h
    obtain ⟨hne, hr1⟩ := pipeRead_eq_some hr
    have hopen : s.readChanOpen = true := by
      rcases hq.1.1 with h3 | h3 <;> simp [State.readChanOpen, h3]
    have hne : s.readChan ≠ [] := by
      rcases hne with hne | hne
      · exact hne
      · rw [hopen] at hne; cases hne
    have hdata : s.readChan = e.data := by
      revert hc
      cases s.first <;> simp only <;> intro hc <;> first
        | exact hc
        | exact absurd hc hne
    refine ⟨hw, hq, hdata ▸ hne, ?_⟩
    rw [hr1, hdata, take_data]
  · next buf hpc =>
    rw [hpc] at h
    obtain ⟨hq, hne, rfl⟩ := h
    split at hs
    · next ans hans =>
      cases hs
      exact ⟨hw, hq, hne, hans⟩
    · next hnone =>
      cases hs
      have hsol : e.solution = none := hnone
      exact ⟨hw, .inl ⟨hq.1, by rw [hsol]; exact hq.2⟩, hne, hsol⟩
  · next ans hpc =>
    cases hs
    rw [hpc] at h
    obtain ⟨hq, hne, hans⟩ := h
    refine ⟨hw, .inl ⟨hq.1, ?_⟩, hne, by rw [hans]; rfl⟩
    show s.writeChan ++ ans = _
    rw [hq.2, hans]; rfl
  · next hpc =>
    cases hs
    rw [hpc] at h
    exact ⟨hw, h⟩
  · cases hs
  · cases hs

/-- A step of the third process, as long as the second one has not written. -/
theorem Quiet.third {s s' : State} (h : Quiet s) (hsec : s.second ≠ .done ∧ s.second ≠ .fault)
    (hs : step e s .third = some s') : Quiet s' ∧ s'.first = s.first ∧ s'.second = s.second ∧
      s'.readChan = s.readChan := by
  obtain ⟨⟨h3, hout⟩, hc⟩ := h
  rcases h3 with h3 | h3
  · simp only [step, h3, Option.some.injEq] at hs
    subst hs
    exact ⟨⟨⟨.inr rfl, hout⟩, hc⟩, rfl, rfl, rfl⟩
  · -- the pipe is empty, and the second process could write
    have hopen : s.writeChanOpen = true := by
      obtain ⟨h1, h2⟩ := hsec
      revert h1 h2
      cases hsec : s.second <;> simp [State.writeChanOpen, hsec]
    simp only [step, h3, pipeRead, hc, hopen, and_self, if_true, Option.map_none] at hs
    cases hs

/-- A step of the third process, when the second one has written. -/
theorem Stored.third {s s' : State} (h : Stored e s) (hs : step e s .third = some s') :
    Stored e s' ∧ s'.first = s.first ∧ s'.second = s.second := by
  obtain ⟨⟨h3 | h3, hout⟩, hc⟩ | ⟨writebuf, n, h3, hn, hout⟩ | ⟨h3, hout⟩ := h
  · simp only [step, h3, Option.some.injEq] at hs
    subst hs
    exact ⟨.inl ⟨⟨.inr rfl, hout⟩, hc⟩, rfl, rfl⟩
  · simp only [step, h3] at hs
    obtain ⟨r, hr, rfl⟩ := Option.map_eq_some_iff.1 hs
    refine ⟨.inr (.inl ⟨_, _, rfl, ?_, hout⟩), rfl, rfl⟩
    rw [overwrite, List.take_left, (pipeRead_eq_some hr).2, hc]; rfl
  · simp only [step, h3, Option.some.injEq] at hs
    subst hs
    exact ⟨.inr (.inr ⟨rfl, congrArg some hn⟩), rfl, rfl⟩
  · simp only [step, h3] at hs
    cases hs

theorem Inv.third {s s' : State} (h : Inv e s) (hs : step e s .third = some s') : Inv e s' := by
  obtain ⟨hw, h⟩ := h
  have hfirst : s'.first = s.first := by
    simp only [step] at hs
    split at hs
    · cases hs; rfl
    · obtain ⟨r, -, rfl⟩ := Option.map_eq_some_iff.1 hs; rfl
    · cases hs; rfl
    · cases hs
  refine ⟨by rw [hfirst]; exact hw, ?_⟩
  cases hsec : s.second with
  | close | read =>
    rw [hsec] at h
    obtain ⟨hq', h1, h2, h4⟩ := h.1.third (by simp [hsec]) hs
    simp only [h2, hsec, h1, h4]
    exact ⟨hq', h.2⟩
  | work | write =>
    rw [hsec] at h
    obtain ⟨hq', -, h2, -⟩ := h.1.third (by simp [hsec]) hs
    simp only [h2, hsec]
    exact ⟨hq', h.2⟩
  | closeWrite | done | fault =>
    rw [hsec] at h
    obtain ⟨hq', -, h2⟩ := h.1.third hs
    simp only [h2, hsec]
    exact ⟨hq', h.2⟩

theorem inv_reachable {s : State} (h : (system e).Reachable s) : Inv e s :=
  System.Inductive.reachable (S := system e) (J := Inv e)
    ⟨fun _ hs => hs ▸ inv_initial e, fun _ p _ hi hs => by
      cases p with
      | first => exact hi.first hs
      | second => exact hi.second hs
      | third => exact hi.third hs⟩ h

/-- **What a finished run leaves.**  For an empty file nothing is written: the second and
    the third process wait for each other.  Else the file holds the first 5000 bytes of
    the solution. -/
theorem output_of_final {s : State} (h : (system e).Reachable s) (hf : Final e s) :
    s.output = if e.data = [] then none else some e.result := by
  obtain ⟨-, hi⟩ := inv_reachable h
  have h1 := hf .first
  have h2 := hf .second
  have h3 := hf .third
  have hfirst : s.first = .done := by
    simp only [step] at h1
    split at h1 <;> first | assumption | cases h1
  cases hsec : s.second with
  | close => simp [step, hsec] at h2
  | read =>
    rw [hsec, hfirst] at hi
    obtain ⟨hq, hc⟩ := hi
    have hdata : e.data = [] := by
      by_contra hne
      simp only at hc
      simp [step, hsec, pipeRead, hc, hne] at h2
    rw [if_pos hdata, hq.1.2]
  | work buf =>
    simp only [step, hsec] at h2
    split at h2 <;> cases h2
  | write | closeWrite => simp [step, hsec] at h2
  | done | fault =>
    rw [hsec] at hi
    obtain ⟨hst, hne, -⟩ := hi
    rw [if_neg hne]
    obtain ⟨⟨h3' | h3', -⟩, -⟩ | ⟨writebuf, n, h3', -, -⟩ | ⟨-, hout⟩ := hst
    · simp [step, h3'] at h3
    · have hclosed : s.writeChanOpen = false := by simp [State.writeChanOpen, hfirst, hsec, h3']
      simp [step, h3', pipeRead, hclosed] at h3
    · simp [step, h3'] at h3
    · exact hout

end Numbers
