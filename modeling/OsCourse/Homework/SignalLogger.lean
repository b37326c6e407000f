/-
  The logger that changes its file at SIGUSR1 (dz6): which descriptors the process has open.
-/
import Mathlib.Data.Nat.Notation
import OsCourse.Lib.Transition

namespace SignalLogger

open Transition

/-! ## Descriptors -/

/-- What a descriptor refers to. -/
inductive File
  | tty
  | log1
  | log2
  deriving DecidableEq

/-- The log files. -/
def File.IsLog (f : File) : Prop := f ≠ .tty

instance (f : File) : Decidable f.IsLog := inferInstanceAs (Decidable (f ≠ .tty))

/-- The descriptors of the process; `none` where a number is not in use. -/
abbrev Table := List (Option File)

/-- The lowest number that is not in use. -/
def Table.lowest (t : Table) : ℕ := t.findIdx Option.isNone

/-- `open` -/
def Table.openFile (t : Table) (f : File) : Table :=
  if t.lowest < t.length then t.set t.lowest (some f) else t ++ [some f]

/-- `close` -/
def Table.close (t : Table) (fd : ℕ) : Table := t.set fd none

/-- The descriptor `d` refers to the file. -/
def Table.RefersTo (t : Table) (d : ℕ) (f : File) : Prop := t[d]? = some (some f)

/-- No log file is open. -/
def Table.NoLog (t : Table) : Prop := ∀ d f, t.RefersTo d f → f = .tty

/-! ## The process -/

/-- The next statement of `main`, from the installation of the handler of SIGUSR1 on. -/
inductive Pc
  | openLog
  | time
  | localtime
  | strftime
  | write
  | sleep
  | perror
  | close
  | ret
  | exited
  deriving DecidableEq

/-- The next statement of `sigusr1_handler`: the test of `is_log1` and the `open` of its branch, or
    `is_log1 = 0` or `is_log1 = 1`. -/
inductive HandlerPc
  | openLog
  | clear
  | set
  deriving DecidableEq

structure State where
  pc : Pc
  handler : Option HandlerPc
  is_log1 : ℕ
  fd : ℕ
  table : Table

/-- `fd = open(...)` -/
def State.openLog (s : State) (f : File) : State :=
  { s with fd := s.table.lowest, table := s.table.openFile f }

/-- A statement of `main` with the outcome of its call, the delivery of SIGUSR1, or a statement of
    the handler. -/
inductive Event
  | main (ok : Bool)
  | usr1
  | handler

/-- A statement of `main`. -/
def State.main (s : State) (ok : Bool) : Option State :=
  match s.pc with
  | .openLog => some { s.openLog .log1 with pc := .time }
  | .time => some { s with pc := if ok then .localtime else .perror }
  | .localtime => some { s with pc := if ok then .strftime else .perror }
  | .strftime => some { s with pc := .write }
  | .write => some { s with pc := if ok then .sleep else .perror }
  | .sleep => some { s with pc := .time }
  | .perror => some { s with pc := .close }
  | .close => some { s with table := s.table.close s.fd, pc := .ret }
  | .ret => some { s with pc := .exited }
  | .exited => none

/-- A statement of `sigusr1_handler`. -/
def State.sigusr1Handler (s : State) : Option State :=
  match s.handler with
  | none => none
  | some .openLog =>
    if s.is_log1 ≠ 0 then some { s.openLog .log2 with handler := some .clear }
    else some { s.openLog .log1 with handler := some .set }
  | some .clear => some { s with is_log1 := 0, handler := none }
  | some .set => some { s with is_log1 := 1, handler := none }

/-- `main` waits while the handler runs, and the handler is not interrupted by another SIGUSR1. -/
def step (s : State) : Event → Option State
  | .main ok => if s.handler = none then s.main ok else none
  | .usr1 => if s.handler = none ∧ s.pc ≠ .exited then some { s with handler := some .openLog } else none
  | .handler => s.sigusr1Handler

/-- When the handler has just been installed. -/
structure Initial (s : State) : Prop where
  pc : s.pc = .openLog
  handler : s.handler = none
  is_log1 : s.is_log1 = 1
  noLog : s.table.NoLog

/-- The process, with any descriptors that it has inherited. -/
def logger : System State Event where
  init := Initial
  step s e s' := step s e = some s'

/-- `fd` refers to the file that `is_log1` names, and no other log is open. -/
structure Right (s : State) : Prop where
  log1 : s.is_log1 = 1 → s.table.RefersTo s.fd .log1
  log2 : s.is_log1 = 0 → s.table.RefersTo s.fd .log2
  only : ∀ d f, s.table.RefersTo d f → f.IsLog → d = s.fd

/-- What the two variables are for, outside of the handler and after the first `open` of `main`. -/
def Consistent (s : State) : Prop := s.handler = none → s.pc ≠ .openLog → Right s

/-! ## Opening a file -/

variable {t : Table} {f g : File} {d : ℕ}

theorem Table.not_refersTo_lowest : ¬ t.RefersTo t.lowest f := by
  intro h
  obtain ⟨hlt, hget⟩ := List.getElem?_eq_some_iff.1 h
  have hnone : (t[t.lowest]).isNone = true := List.findIdx_getElem
  rw [hget] at hnone
  cases hnone

theorem Table.refersTo_openFile :
    (t.openFile f).RefersTo d g ↔ (d = t.lowest ∧ g = f) ∨ (d ≠ t.lowest ∧ t.RefersTo d g) := by
  have hget : (t.openFile f)[d]? = if d = t.lowest then some (some f) else t[d]? := by
    unfold Table.openFile
    by_cases hlt : t.lowest < t.length
    · rw [if_pos hlt, List.getElem?_set]
      by_cases hd : d = t.lowest
      · rw [if_pos hd.symm, if_pos hlt, if_pos hd]
      · rw [if_neg (Ne.symm hd), if_neg hd]
    · have hlen : t.lowest = t.length := Nat.le_antisymm List.findIdx_le_length (Nat.not_lt.1 hlt)
      rw [if_neg hlt, hlen, List.getElem?_append]
      split_ifs with h1 h2 h3
      · omega
      · rfl
      · simp [h3]
      · rw [List.getElem?_eq_none (by simp; omega), List.getElem?_eq_none (Nat.not_lt.1 h1)]
  unfold Table.RefersTo
  rw [hget]
  by_cases hd : d = t.lowest
  · simp [hd, eq_comm]
  · simp [hd]

theorem Table.not_refersTo_close : ¬ (t.close d).RefersTo d f := by
  unfold Table.RefersTo Table.close
  rw [List.getElem?_set_self']
  cases t[d]? with
  | none => simp
  | some o => simp

/-! ## What a statement does -/

variable {s s' : State} {ok : Bool} {e : Event}

theorem State.main_cases (h : s.main ok = some s') :
    (s.pc = .openLog ∧ s' = { s.openLog .log1 with pc := .time }) ∨
      (s.pc = .close ∧ s' = { s with table := s.table.close s.fd, pc := .ret }) ∨ s.pc = .ret ∨
      (s.pc ≠ .openLog ∧ s.pc ≠ .close ∧
        ∃ pc, pc ≠ .openLog ∧ pc ≠ .ret ∧ pc ≠ .exited ∧ s' = { s with pc := pc }) := by
  unfold State.main at h
  cases hpc : s.pc <;> rw [hpc] at h <;> simp only [Option.some.injEq, reduceCtorEq] at h
  case openLog => exact .inl ⟨rfl, h.symm⟩
  case close => exact .inr (.inl ⟨rfl, h.symm⟩)
  case ret => exact .inr (.inr (.inl rfl))
  all_goals cases ok <;> exact .inr (.inr (.inr ⟨by decide, by decide, _, by decide, by decide, by decide, h.symm⟩))

theorem State.handler_cases (h : s.sigusr1Handler = some s') :
    (s.handler = some .openLog ∧ ∃ f pc, File.IsLog f ∧ pc ≠ .openLog ∧
        s' = { s.openLog f with handler := some pc }) ∨
      (s.handler ≠ none ∧ s.handler ≠ some .openLog ∧ ∃ b, s' = { s with is_log1 := b, handler := none }) := by
  unfold State.sigusr1Handler at h
  split at h
  · cases h
  · rename_i hh
    split_ifs at h with h1
    · exact .inl ⟨hh, .log2, .clear, by decide, by decide, (Option.some.inj h).symm⟩
    · exact .inl ⟨hh, .log1, .set, by decide, by decide, (Option.some.inj h).symm⟩
  · rename_i hh
    exact .inr ⟨by simp [hh], by simp [hh], 0, (Option.some.inj h).symm⟩
  · rename_i hh
    exact .inr ⟨by simp [hh], by simp [hh], 1, (Option.some.inj h).symm⟩

/-! ## Runs without a signal -/

/-- No log is open when `main` opens its own, the handler does not come to its end afterwards, and
    `main` does not get to the `close` of its error paths. -/
def Quiet (s : State) : Event → Prop
  | .main _ => (s.pc = .openLog → s.table.NoLog) ∧ s.pc ≠ .close
  | .usr1 => True
  | .handler => s.pc ≠ .openLog → s.handler = some .openLog

/-- What the steps keep. -/
structure Sound (s : State) : Prop where
  running : s.pc ≠ .ret
  -- before the first `open` of `main`
  before : s.pc = .openLog → s.table.NoLog → s.is_log1 = 1 ∧ (s.handler = none ∨ s.handler = some .openLog)
  -- after it
  is_log1 : s.pc ≠ .openLog → s.is_log1 = 1
  right : s.pc ≠ .openLog → s.handler = none ∨ s.handler = some .openLog → Right s
  other : s.pc ≠ .openLog → s.handler ≠ none → s.handler ≠ some .openLog →
    ∃ d f, d ≠ s.fd ∧ s.table.RefersTo d f ∧ f.IsLog

theorem Sound.consistent (h : Sound s) : Consistent s := fun hh hpc => h.right hpc (.inl hh)

theorem Initial.sound (h : Initial s) : Sound s where
  running := by
    rw [h.pc]
    decide
  before _ _ := ⟨h.is_log1, .inl h.handler⟩
  is_log1 hpc := absurd h.pc hpc
  right hpc := absurd h.pc hpc
  other hpc := absurd h.pc hpc

/-- A log that has been opened with no other log open. -/
theorem Right.openLog (h : s.table.NoLog) (h1 : s.is_log1 = 1) {pc : Pc} :
    Right { s.openLog .log1 with pc := pc } where
  log1 _ := Table.refersTo_openFile.2 (.inl ⟨rfl, rfl⟩)
  log2 h0 := by
    have h0' : s.is_log1 = 0 := h0
    omega
  only := by
    intro d f hf hlog
    rcases Table.refersTo_openFile.1 hf with ⟨rfl, -⟩ | ⟨-, hf⟩
    · rfl
    · exact absurd (h d f hf) hlog

theorem Right.congr (h : Right s) {pc : Pc} {hp : Option HandlerPc} : Right { s with pc := pc, handler := hp } :=
  ⟨h.log1, h.log2, h.only⟩

/-- **The steps of a quiet run** keep the invariant. -/
theorem Sound.step (h : Sound s) (hs : step s e = some s') (hq : Quiet s e) : Sound s' := by
  cases e with
  | main ok =>
    obtain ⟨hh, hmain⟩ := Option.ite_none_right_eq_some.1 hs
    rcases State.main_cases hmain with ⟨hpc, rfl⟩ | ⟨hpc, rfl⟩ | hpc | ⟨hpc, -, pc, hpc1, hpc2, -, rfl⟩
    · have hno := hq.1 hpc
      have h1 := (h.before hpc hno).1
      refine ⟨nofun, nofun, fun _ => h1, fun _ _ => Right.openLog hno h1, ?_⟩
      intro _ hne
      exact absurd hh hne
    · exact absurd hpc hq.2
    · exact absurd hpc h.running
    · exact ⟨hpc2, fun hpc' => absurd hpc' hpc1, fun _ => h.is_log1 hpc, fun _ hh' => (h.right hpc hh').congr,
        fun _ hne => absurd hh hne⟩
  | usr1 =>
    obtain ⟨⟨hh, -⟩, hs⟩ := Option.ite_none_right_eq_some.1 hs
    obtain rfl := Option.some.inj hs
    refine ⟨h.running, ?_, h.is_log1, ?_, ?_⟩
    · intro hpc hno
      exact ⟨(h.before hpc hno).1, .inr rfl⟩
    · intro hpc _
      exact (h.right hpc (.inl hh)).congr
    · intro _ _ hne
      exact absurd rfl hne
  | handler =>
    rcases State.handler_cases hs with ⟨hh, f, pc, hlog, hpc, rfl⟩ | ⟨hne, hne', b, rfl⟩
    · refine ⟨h.running, ?_, h.is_log1, ?_, ?_⟩
      · intro _ hno
        exact absurd (hno _ f (Table.refersTo_openFile.2 (.inl ⟨rfl, rfl⟩))) hlog
      · rintro _ (hh' | hh')
        · cases hh'
        · exact absurd (Option.some.inj hh') hpc
      · -- the log that has been open is not closed
        intro hpc' _ _
        have hold := (h.right hpc' (.inr hh)).log1 (h.is_log1 hpc')
        have hfd : s.fd ≠ s.table.lowest := fun heq => Table.not_refersTo_lowest (heq ▸ hold)
        exact ⟨s.fd, .log1, hfd, Table.refersTo_openFile.2 (.inr ⟨hfd, hold⟩), by decide⟩
    · have hpc : s.pc = .openLog := by
        by_contra hpc
        exact hne' (hq hpc)
      refine ⟨h.running, ?_, fun hpc' => absurd hpc hpc', fun hpc' => absurd hpc hpc', fun hpc' => absurd hpc hpc'⟩
      intro _ hno
      rcases (h.before hpc hno).2 with hh | hh
      · exact absurd hh hne
      · exact absurd hh hne'

/-- Any other step leaves a state in which the descriptors are not right. -/
theorem Sound.not_consistent (h : Sound s) (hs : SignalLogger.step s e = some s') (hq : ¬ Quiet s e) :
    ¬ Consistent s' := by
  intro hc
  cases e with
  | main ok =>
    obtain ⟨hh, hmain⟩ := Option.ite_none_right_eq_some.1 hs
    rcases State.main_cases hmain with ⟨hpc, rfl⟩ | ⟨hpc, rfl⟩ | hpc | ⟨hpc, hpc', -⟩
    · refine hq ⟨fun _ d f hf => ?_, fun hpc' => ?_⟩
      · by_contra hlog
        have hd : d ≠ s.table.lowest := by
          rintro rfl
          exact Table.not_refersTo_lowest hf
        exact hd ((hc hh (by simp)).only d f (Table.refersTo_openFile.2 (.inr ⟨hd, hf⟩)) hlog)
      · rw [hpc] at hpc'
        cases hpc'
    · have hpc' : s.pc ≠ .openLog := by
        rw [hpc]
        decide
      exact Table.not_refersTo_close ((hc hh (by simp)).log1 (h.is_log1 hpc'))
    · exact h.running hpc
    · exact hq ⟨fun h0 => absurd h0 hpc, hpc'⟩
  | usr1 => exact hq trivial
  | handler =>
    rcases State.handler_cases hs with ⟨hh, f, pc, hlog, hpc, rfl⟩ | ⟨hne, hne', b, rfl⟩
    · exact hq fun _ => hh
    · refine hq fun hpc => ?_
      obtain ⟨d, f, hd, hf, hlog⟩ := h.other hpc hne hne'
      exact absurd ((hc rfl hpc).only d f hf hlog) hd

/-- **The two variables and the descriptors are right all along a run** exactly if the run is
    quiet. -/
theorem always_consistent_iff {tr : List (State × Event)} (h : logger.Exec tr s) :
    System.Always Consistent tr s ↔ ∀ x ∈ tr, Quiet x.1 x.2 := by
  have hinv : (logger.restrict Quiet).Inductive Sound :=
    ⟨fun s hs => Initial.sound hs, fun s e s' h hs => h.step hs.1 hs.2⟩
  exact h.always_iff hinv (fun s h => h.consistent) fun s e s' h hs hq => h.not_consistent hs hq

/-! ## Runs with a signal -/

/-- A process with the three standard descriptors. -/
def start : State := ⟨.openLog, none, 1, 0, [some .tty, some .tty, some .tty]⟩

theorem initial_start : Initial start where
  pc := rfl
  handler := rfl
  is_log1 := rfl
  noLog := by
    intro d f hf
    have hmem := List.mem_of_getElem? hf
    simpa [start] using hmem

/-- When its log has been opened. -/
def opened : State := ⟨.time, none, 1, 3, [some .tty, some .tty, some .tty, some .log1]⟩

/-- A signal that has been delivered, and is still to be handled. -/
theorem always_consistent_iff_usr1 :
    System.Always Consistent [(start, Event.main true), (opened, Event.usr1)]
      { opened with handler := some .openLog } := by
  have hexec : logger.Exec ([] ++ [(start, Event.main true)] ++ [(opened, Event.usr1)])
      { opened with handler := some .openLog } := .snoc (.snoc (.init initial_start) rfl) rfl
  refine (always_consistent_iff hexec).2 fun x hx => ?_
  rcases List.mem_cons.1 hx with rfl | hx
  · exact ⟨fun _ => initial_start.noLog, by decide⟩
  · obtain rfl := List.mem_singleton.1 hx
    exact trivial

theorem reachable_of_run (es : List Event) (h : System.runFn step start es = some s) : logger.Reachable s := by
  refine System.Reachable.map (S := System.ofFn start step) (T := logger) id ?_ ?_ (System.reachable_runFn h)
  · rintro _ rfl
    exact initial_start
  · intro _ e _ _ he
    exact .inr ⟨e, he⟩

/-- After a signal behind the first `open`: the old log is still open. -/
def rotated : State := ⟨.time, none, 0, 4, [some .tty, some .tty, some .tty, some .log1, some .log2]⟩

/-- After a signal before the first `open`: `fd` refers to the other file. -/
def early : State := ⟨.time, none, 0, 4, [some .tty, some .tty, some .tty, some .log2, some .log1]⟩

theorem not_consistent_signals :
    (System.runFn step start [.main true, .usr1, .handler, .handler] = some rotated ∧
        logger.Reachable rotated ∧ ¬ Consistent rotated) ∧
      System.runFn step start [.usr1, .handler, .handler, .main true] = some early ∧
        logger.Reachable early ∧ ¬ Consistent early := by
  refine ⟨⟨rfl, reachable_of_run [.main true, .usr1, .handler, .handler] rfl, fun hc => ?_⟩,
    rfl, reachable_of_run [.usr1, .handler, .handler, .main true] rfl, fun hc => ?_⟩
  · have hfd := (hc rfl (by decide)).only 3 .log1 rfl (by decide)
    revert hfd
    decide
  · have hfd := (hc rfl (by decide)).log2 rfl
    revert hfd
    simp [early, Table.RefersTo]

end SignalLogger
