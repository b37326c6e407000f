/-
  The clock of dz9: post.c writes the time into shared memory, wait.c prints it, and two
  semaphores in the same memory let them take turns.
-/
import Mathlib.Data.List.Nodup
import Mathlib.Data.List.Range
import Mathlib.Logic.Function.Basic
import OsCourse.Lib.Text
import OsCourse.Lib.Traces

namespace Semaphores.Clock

open Transition System Text

/-! ## The time -/

/-- `struct tm`, with the fields that are printed; `year` is `tm_year + 1900`, and `mon` is
    `tm_mon + 1`. -/
structure Tm where
  year : ℕ
  mon : ℕ
  mday : ℕ
  hour : ℕ
  min : ℕ
  sec : ℕ
  year_ge : 1000 ≤ year
  year_lt : year < 10000
  mon_lt : mon ≤ 12
  mday_lt : mday ≤ 31
  hour_lt : hour < 24
  min_lt : min < 60
  sec_lt : sec ≤ 60

def twoDigits (n : ℕ) : Text := [Nat.digitChar (n / 10), Nat.digitChar (n % 10)]

/-- `strftime` with the format `%Y-%m-%d %H:%M:%S\n` -/
def strftime (t : Tm) : Text :=
  twoDigits (t.year / 100) ++ twoDigits (t.year % 100) ++ '-' :: twoDigits t.mon ++ '-' :: twoDigits t.mday ++
    ' ' :: twoDigits t.hour ++ ':' :: twoDigits t.min ++ ':' :: twoDigits t.sec ++ ['\n']

/-! ## The programs -/

inductive Program where
  | wait
  | post
  deriving DecidableEq

/-- Where `main` of wait.c is. -/
inductive WaitPc where
  /-- before `shm_open` -/
  | start
  /-- before `ftruncate` and `mmap` -/
  | created
  /-- before `sem_init(&buffer->sem1, 1, 0)` -/
  | mapped
  /-- before `sem_init(&buffer->sem2, 1, 0)` -/
  | init1
  /-- before `atomic_store(&buffer->mem_ready, 1)` -/
  | init2
  /-- at `while (is_continue)` -/
  | loop
  /-- at `sem_wait(&buffer->sem1)` -/
  | waiting
  /-- in `printf`, with the characters that it has read -/
  | printing (line : Text)
  /-- before `sem_post(&buffer->sem2)` -/
  | posting
  /-- before `sem_destroy(&buffer->sem1)` -/
  | destroy1
  /-- before `sem_destroy(&buffer->sem2)` -/
  | destroy2
  /-- before `shm_unlink` -/
  | unlinking
  | left
  deriving DecidableEq

/-- Where `main` of post.c is. -/
inductive PostPc where
  /-- before `shm_open` -/
  | start
  /-- before the test of `buffer->mem_ready` -/
  | opened
  /-- there is no object, or it is not ready: the program has ended -/
  | failed
  /-- at `while (is_continue)` -/
  | loop
  /-- the time is formatted; before `sem_post(&buffer->sem1)` -/
  | posting
  /-- in `strcpy(buffer->time_str, time_str)`, with the bytes that are still to be stored -/
  | copying (rest : List ℕ)
  /-- at `sem_wait(&buffer->sem2)` -/
  | waiting
  | left
  deriving DecidableEq

/-- The memory that both programs map, and the two programs.  A semaphore has no value before
    `sem_init` and after `sem_destroy`. -/
structure State where
  /-- the name `SHMEM_NAME` is there -/
  linked : Bool
  /-- the object has been sized by `ftruncate`, which fills it with 0 -/
  sized : Bool
  memReady : Bool
  timeStr : ℕ → Char
  sem1 : Option ℕ
  sem2 : Option ℕ
  waitPc : WaitPc
  postPc : PostPc
  /-- `is_continue` of each program -/
  isContinue : Program → Bool
  /-- `time_str` of `main` in post.c -/
  formatted : Text
  /-- how often `sem1` has been posted -/
  posted : ℕ
  /-- what wait.c has printed -/
  printed : List Text

def initial : State where
  linked := false
  sized := false
  memReady := false
  timeStr := fun _ => nul
  sem1 := none
  sem2 := none
  waitPc := .start
  postPc := .start
  isContinue := fun _ => true
  formatted := []
  posted := 0
  printed := []

/-- `sem_post`, on a semaphore that there is. -/
def semPost (sem : Option ℕ) : Option ℕ := sem.map (· + 1)

/-- `sem_wait`, which blocks while the value is 0. -/
def semWait : Option ℕ → Option ℕ
  | some (n + 1) => some n
  | _ => none

/-- The next step of wait.c.  A `printf` that comes to the end of the array has no next step. -/
def stepWait (s : State) : Option State :=
  match s.waitPc with
  | .start => some { s with linked := true, waitPc := .created }
  | .created => some { s with sized := true, waitPc := .mapped }
  | .mapped => some { s with sem1 := some 0, waitPc := .init1 }
  | .init1 => some { s with sem2 := some 0, waitPc := .init2 }
  | .init2 => some { s with memReady := true, waitPc := .loop }
  | .loop => some { s with waitPc := if s.isContinue .wait then .waiting else .destroy1 }
  | .waiting => (semWait s.sem1).map fun n => { s with sem1 := some n, waitPc := .printing [] }
  | .printing line =>
    if line.length < 100 then
      if s.timeStr line.length = nul then some { s with printed := s.printed ++ [line], waitPc := .posting }
      else some { s with waitPc := .printing (line ++ [s.timeStr line.length]) }
    else none
  | .posting => (semPost s.sem2).map fun n => { s with sem2 := some n, waitPc := .loop }
  | .destroy1 => some { s with sem1 := none, waitPc := .destroy2 }
  | .destroy2 => some { s with sem2 := none, waitPc := .unlinking }
  | .unlinking => some { s with linked := false, waitPc := .left }
  | .left => none

/-- The next step of post.c, the stores of `strcpy` apart; `time` is the time that it reads. -/
def stepPost (time : Tm) (s : State) : Option State :=
  match s.postPc with
  | .start => some { s with postPc := if s.linked then .opened else .failed }
  | .opened => some { s with postPc := if s.sized && s.memReady then .loop else .failed }
  | .failed => none
  | .loop =>
    if s.isContinue .post then some { s with formatted := strftime time, postPc := .posting }
    else some { s with postPc := .left }
  | .posting =>
    (semPost s.sem1).map fun n =>
      { s with sem1 := some n
               posted := s.posted + 1
               postPc := .copying (List.range (s.formatted.length + 1)) }
  | .copying [] => some { s with postPc := .waiting }
  | .copying (_ :: _) => none
  | .waiting => (semWait s.sem2).map fun n => { s with sem2 := some n, postPc := .loop }
  | .left => none

/-- `strcpy` stores byte `i`, which it may do in any order. -/
def stepCopy (i : ℕ) (s : State) : Option State :=
  match s.postPc with
  | .copying rest =>
    if i ∈ rest then
      some { s with timeStr := Function.update s.timeStr i ((s.formatted ++ [nul]).getD i nul)
                    postPc := .copying (rest.erase i) }
    else none
  | _ => none

inductive Act where
  | wait
  | post
  | copy (i : ℕ)
  /-- `handle_signal` -/
  | signal (p : Program)
  /-- `handle_signal` in a `sem_wait` of the loop, which fails with `EINTR` -/
  | interrupt (p : Program)
  deriving DecidableEq

/-- A signal that comes in `sem_wait`: the loop is left. -/
def stepInterrupt (s : State) : Program → Option State
  | .wait => if s.waitPc = .waiting then some { s with waitPc := .destroy1 } else none
  | .post => if s.postPc = .waiting then some { s with postPc := .left } else none

/-- The times that post.c reads, one for each round. -/
def step (times : ℕ → Tm) (s : State) : Act → Option State
  | .wait => stepWait s
  | .post => stepPost (times s.posted) s
  | .copy i => stepCopy i s
  | .signal p => some { s with isContinue := Function.update s.isContinue p false }
  | .interrupt p => stepInterrupt { s with isContinue := Function.update s.isContinue p false } p

def system (times : ℕ → Tm) : System State Act := ofFn initial (step times)

/-! ## What is printed -/

/-- The lines that can be the `k`-th one: each character is of the time that has just been
    posted, or of the one before.  The memory has been 0 before the first one. -/
def Printable (times : ℕ → Tm) : ℕ → Text → Prop
  | 0, line => line <+: strftime (times 0)
  | k + 1, text => text.length = 20 ∧ ∀ (j : ℕ) (c : Char), text[j]? = some c →
      (strftime (times (k + 1)))[j]? = some c ∨ (strftime (times k))[j]? = some c

/-- Byte `i` of `buffer->time_str` after the first `n` times have been copied. -/
def shown (times : ℕ → Tm) : ℕ → ℕ → Char
  | 0, _ => nul
  | n + 1, i => (strftime (times n) ++ [nul]).getD i nul

variable {times : ℕ → Tm} {s s' : State} {line : Text} {k n i : ℕ}

@[simp] theorem length_strftime (t : Tm) : (strftime t).length = 20 := rfl

theorem nul_notMem_twoDigits (h : n < 100) : nul ∉ twoDigits n := by
  have hdigit : ∀ m < 10, nul ≠ Nat.digitChar m := by
    intro m hm heq
    have := Nat.isDigit_digitChar (n := m)
    rw [← heq, decide_eq_true hm] at this
    exact absurd this (by decide)
  have h1 := hdigit (n / 10) (by omega)
  have h2 := hdigit (n % 10) (by omega)
  simp [twoDigits, h1, h2]

theorem nul_notMem_strftime (t : Tm) : nul ∉ strftime t := by
  have hyear := nul_notMem_twoDigits (n := t.year / 100) (by have := t.year_lt; omega)
  have hyear' := nul_notMem_twoDigits (n := t.year % 100) (by omega)
  have hmon := nul_notMem_twoDigits (n := t.mon) (by have := t.mon_lt; omega)
  have hmday := nul_notMem_twoDigits (n := t.mday) (by have := t.mday_lt; omega)
  have hhour := nul_notMem_twoDigits (n := t.hour) (by have := t.hour_lt; omega)
  have hmin := nul_notMem_twoDigits (n := t.min) (by have := t.min_lt; omega)
  have hsec := nul_notMem_twoDigits (n := t.sec) (by have := t.sec_lt; omega)
  have hc : nul ≠ '-' ∧ nul ≠ ' ' ∧ nul ≠ ':' ∧ nul ≠ '\n' := by decide
  simp [strftime, hyear, hyear', hmon, hmday, hhour, hmin, hsec, hc]

theorem shown_succ (hi : i < 20) : (strftime (times n))[i]? = some (shown times (n + 1) i) := by
  have hlen : i < (strftime (times n)).length := hi
  rw [shown, List.getD_eq_getElem?_getD, List.getElem?_append_left hlen, List.getElem?_eq_getElem hlen,
    Option.getD_some]

theorem shown_ne_nul (hi : i < 20) : shown times (n + 1) i ≠ nul := by
  intro h
  have := List.mem_of_getElem? (@shown_succ times n i hi)
  rw [h] at this
  exact nul_notMem_strftime _ this

theorem shown_of_le (hi : 20 ≤ i) : shown times n i = nul := by
  cases n with
  | zero => rfl
  | succ n =>
    rw [shown, List.getD_eq_getElem?_getD, List.getElem?_append_right (by simpa using hi), length_strftime]
    cases i - 20 <;> rfl

/-- The characters that `printf` has read while the time `n` is copied over the one before. -/
def Mixed (times : ℕ → Tm) (n : ℕ) (text : Text) : Prop :=
  ∀ (j : ℕ) (c : Char), text[j]? = some c → c ≠ nul ∧ (c = shown times (n + 1) j ∨ c = shown times n j)

theorem Mixed.length_le (h : Mixed times n line) : line.length ≤ 20 := by
  by_contra hlt
  have hlt : 20 < line.length := Nat.lt_of_not_le hlt
  obtain ⟨hc, hc' | hc'⟩ := h 20 _ (List.getElem?_eq_getElem hlt)
  · exact hc (hc'.trans (shown_of_le (Nat.le_refl 20)))
  · exact hc (hc'.trans (shown_of_le (Nat.le_refl 20)))

theorem Mixed.concat (h : Mixed times n line) {c : Char} (hc : c ≠ nul)
    (hshown : c = shown times (n + 1) line.length ∨ c = shown times n line.length) : Mixed times n (line ++ [c]) := by
  intro j d hd
  rcases Nat.lt_trichotomy j line.length with hj | rfl | hj
  · rw [List.getElem?_append_left hj] at hd
    exact h j d hd
  · rw [List.getElem?_concat_length] at hd
    cases hd
    exact ⟨hc, hshown⟩
  · rw [List.getElem?_eq_none (by rw [List.length_append, List.length_singleton]; exact hj)] at hd
    cases hd

/-- A line ends where `printf` finds a NUL. -/
theorem printable_iff : Printable times k line ↔
    Mixed times k line ∧ (shown times (k + 1) line.length = nul ∨ shown times k line.length = nul) := by
  cases k with
  | zero =>
    rw [Printable, List.prefix_iff_getElem?]
    constructor
    · intro h
      refine ⟨fun j c hc => ?_, Or.inr rfl⟩
      obtain ⟨hj, rfl⟩ := List.getElem?_eq_some_iff.1 hc
      have hsome := h j hj
      have hj20 : j < 20 := (List.getElem?_eq_some_iff.1 hsome).1
      rw [shown_succ hj20] at hsome
      injection hsome with hsome
      rw [← hsome]
      exact ⟨shown_ne_nul hj20, Or.inl rfl⟩
    · rintro ⟨h, -⟩ j hj
      obtain ⟨hc, hc' | hc'⟩ := h j _ (List.getElem?_eq_getElem hj)
      · rw [hc']
        exact shown_succ (Nat.lt_of_lt_of_le hj h.length_le)
      · exact absurd hc' hc
  | succ k =>
    constructor
    · rintro ⟨hlen, h⟩
      refine ⟨fun j c hc => ?_, Or.inl (shown_of_le (Nat.le_of_eq hlen.symm))⟩
      have hj : j < 20 := hlen ▸ (List.getElem?_eq_some_iff.1 hc).1
      have h' := h j c hc
      rw [shown_succ hj, shown_succ hj] at h'
      rcases h' with h' | h' <;> injection h' with h' <;> subst h'
      · exact ⟨shown_ne_nul hj, Or.inl rfl⟩
      · exact ⟨shown_ne_nul hj, Or.inr rfl⟩
    · rintro ⟨h, hnul⟩
      have hlen : line.length = 20 := by
        by_contra hne
        have hlt : line.length < 20 := by have := h.length_le; omega
        exact hnul.elim (shown_ne_nul hlt) (shown_ne_nul hlt)
      refine ⟨hlen, fun j c hc => ?_⟩
      have hj : j < 20 := hlen ▸ (List.getElem?_eq_some_iff.1 hc).1
      rw [shown_succ hj, shown_succ hj]
      exact (h j c hc).2.imp (fun h => by rw [h]) (fun h => by rw [h])

/-! ## The invariant -/

/-- It is the turn of wait.c. -/
def WaitPc.turn : WaitPc → ℕ
  | .printing _ | .posting => 1
  | _ => 0

/-- It is the turn of post.c. -/
def PostPc.turn : PostPc → ℕ
  | .start | .opened | .failed | .loop | .posting => 1
  | _ => 0

/-- A line is announced and not printed yet. -/
def Announced (s : State) : Prop := 0 < s.sem1.getD 0 ∨ ∃ line, s.waitPc = .printing line

/-- All lines that have been announced are printed. -/
def Answered (s : State) : Prop := 0 < s.sem2.getD 0 ∨ s.waitPc = .posting ∨ 0 < s.postPc.turn

/-- What is in the memory, and what `post.c` copies there. -/
def Contents (times : ℕ → Tm) (s : State) : Prop :=
  match s.postPc with
  | .copying rest => ∃ n, s.posted = n + 1 ∧ s.formatted = strftime (times n) ∧ rest.Nodup ∧
      ∀ i, s.timeStr i = if i ∈ rest then shown times n i else shown times (n + 1) i
  | .posting => s.formatted = strftime (times s.posted) ∧ ∀ i, s.timeStr i = shown times s.posted i
  | _ => ∀ i, s.timeStr i = shown times s.posted i

structure Inv (times : ℕ → Tm) (s : State) : Prop where
  contents : Contents times s
  /-- the turn is with one of the programs, or with one of the semaphores -/
  turns : s.sem1.getD 0 + s.waitPc.turn + s.sem2.getD 0 + s.postPc.turn ≤ 1
  announced : Announced s → s.posted = s.printed.length + 1
  answered : Answered s → s.posted = s.printed.length
  line : ∀ line, s.waitPc = .printing line → Mixed times s.printed.length line
  printed : ∀ k line, s.printed[k]? = some line → Printable times k line

theorem inv_initial : Inv times initial where
  contents := fun i => rfl
  turns := Nat.le_refl 1
  announced := by simp [Announced, initial]
  answered := fun _ => rfl
  line := by simp [initial]
  printed := by simp [initial]

/-- A step that hands nothing on. -/
theorem Inv.quiet (h : Inv times s) (hcontents : Contents times s') (h1 : s'.sem1.getD 0 ≤ s.sem1.getD 0)
    (h2 : s'.sem2.getD 0 ≤ s.sem2.getD 0) (hwait : s'.waitPc = s.waitPc ∨ s'.waitPc.turn = 0)
    (hpost : s'.postPc.turn ≤ s.postPc.turn) (hposted : s'.posted = s.posted) (hprinted : s'.printed = s.printed) :
    Inv times s' := by
  have hprinting : ∀ line, s'.waitPc = .printing line → s.waitPc = .printing line := by
    intro line hline
    rcases hwait with hwait | hwait
    · rw [← hwait, hline]
    · rw [hline] at hwait
      cases hwait
  refine ⟨hcontents, ?_, ?_, ?_, ?_, ?_⟩
  · have hturns := h.turns
    have hle : s'.waitPc.turn ≤ s.waitPc.turn := by
      rcases hwait with hwait | hwait
      · rw [hwait]
      · rw [hwait]
        exact Nat.zero_le _
    omega
  · intro ha
    rw [hposted, hprinted]
    refine h.announced (ha.imp (fun ha => Nat.lt_of_lt_of_le ha h1) ?_)
    rintro ⟨line, hline⟩
    exact ⟨line, hprinting line hline⟩
  · intro ha
    rw [hposted, hprinted]
    refine h.answered (ha.imp (fun ha => Nat.lt_of_lt_of_le ha h2) (Or.imp (fun hline => ?_)
      fun ha => Nat.lt_of_lt_of_le ha hpost))
    rcases hwait with hwait | hwait
    · rw [← hwait, hline]
    · rw [hline] at hwait
      cases hwait
  · intro line hline
    rw [hprinted]
    exact h.line line (hprinting line hline)
  · rw [hprinted]
    exact h.printed

/-- What `printf` finds. -/
theorem Inv.shown_of_printing (h : Inv times s) (hline : s.waitPc = .printing line) (i : ℕ) :
    s.timeStr i = shown times (s.printed.length + 1) i ∨ s.timeStr i = shown times s.printed.length i := by
  have hposted := h.announced (Or.inr ⟨line, hline⟩)
  have hturns := h.turns
  have hcontents := h.contents
  rw [hline, WaitPc.turn] at hturns
  unfold Contents at hcontents
  split at hcontents
  case h_1 rest hpc =>
    obtain ⟨n, hn, -, -, hshown⟩ := hcontents
    obtain rfl : n = s.printed.length := by omega
    rw [hshown i]
    split_ifs
    · exact Or.inr rfl
    · exact Or.inl rfl
  case h_2 hpc =>
    rw [hpc, PostPc.turn] at hturns
    omega
  case h_3 hpc =>
    rw [hcontents i, hposted]
    exact Or.inl rfl

theorem semWait_eq_some {sem : Option ℕ} (h : semWait sem = some n) : sem = some (n + 1) := by
  unfold semWait at h
  split at h
  · cases h
    rfl
  · cases h

/-- wait.c takes its turn. -/
theorem Inv.takeTurn (h : Inv times s) (hsem : s.sem1 = some (n + 1)) :
    Inv times { s with sem1 := some n, waitPc := .printing [] } := by
  have hturns := h.turns
  have hposted := h.announced (Or.inl (by rw [hsem]; exact Nat.succ_pos n))
  rw [hsem, Option.getD_some] at hturns
  refine ⟨h.contents, ?_, fun _ => hposted, ?_, ?_, h.printed⟩
  · show n + 1 + s.sem2.getD 0 + s.postPc.turn ≤ 1
    omega
  · rintro (ha | ha | ha)
    · have ha : 0 < s.sem2.getD 0 := ha
      omega
    · cases ha
    · have ha : 0 < s.postPc.turn := ha
      omega
  · intro line hline
    cases hline
    intro j c hc
    cases hc

/-- `printf` reads one more character. -/
theorem Inv.readChar (h : Inv times s) (hpc : s.waitPc = .printing line) (hnul : s.timeStr line.length ≠ nul) :
    Inv times { s with waitPc := .printing (line ++ [s.timeStr line.length]) } := by
  have hposted := h.announced (Or.inr ⟨line, hpc⟩)
  have hturns := h.turns
  rw [hpc, WaitPc.turn] at hturns
  refine ⟨h.contents, hturns, fun _ => hposted, ?_, ?_, h.printed⟩
  · rintro (ha | ha | ha)
    · have ha : 0 < s.sem2.getD 0 := ha
      omega
    · cases ha
    · have ha : 0 < s.postPc.turn := ha
      omega
  · intro line' hline'
    cases hline'
    exact (h.line line hpc).concat hnul (h.shown_of_printing hpc line.length)

/-- `printf` finds the end of the line. -/
theorem Inv.endLine (h : Inv times s) (hpc : s.waitPc = .printing line) (hnul : s.timeStr line.length = nul) :
    Inv times { s with printed := s.printed ++ [line], waitPc := .posting } := by
  have hposted := h.announced (Or.inr ⟨line, hpc⟩)
  have hturns := h.turns
  rw [hpc, WaitPc.turn] at hturns
  have hlast : Printable times s.printed.length line := by
    have hshown := h.shown_of_printing hpc line.length
    rw [hnul, eq_comm, @eq_comm _ nul] at hshown
    exact printable_iff.2 ⟨h.line line hpc, hshown⟩
  refine ⟨h.contents, hturns, ?_, ?_, ?_, ?_⟩
  · rintro (ha | ⟨line, ha⟩)
    · have ha : 0 < s.sem1.getD 0 := ha
      omega
    · cases ha
  · intro ha
    rw [List.length_append, List.length_singleton]
    exact hposted
  · intro line hline
    cases hline
  · intro k line' hk
    rcases Nat.lt_trichotomy k s.printed.length with hlt | rfl | hlt
    · rw [List.getElem?_append_left hlt] at hk
      exact h.printed k line' hk
    · rw [List.getElem?_concat_length] at hk
      cases hk
      exact hlast
    · rw [List.getElem?_eq_none (by rw [List.length_append, List.length_singleton]; exact hlt)] at hk
      cases hk

/-- wait.c gives the turn back. -/
theorem Inv.giveTurn (h : Inv times s) (hpc : s.waitPc = .posting) (hsem : s.sem2 = some n) :
    Inv times { s with sem2 := some (n + 1), waitPc := .loop } := by
  have hturns := h.turns
  have hposted := h.answered (Or.inr (Or.inl hpc))
  rw [hsem, hpc, WaitPc.turn, Option.getD_some] at hturns
  refine ⟨h.contents, ?_, ?_, fun _ => hposted, ?_, h.printed⟩
  · show s.sem1.getD 0 + 0 + (n + 1) + s.postPc.turn ≤ 1
    omega
  · rintro (ha | ⟨line, ha⟩)
    · have ha : 0 < s.sem1.getD 0 := ha
      omega
    · cases ha
  · intro line hline
    cases hline

theorem Inv.stepWait (h : Inv times s) (hs : stepWait s = some s') : Inv times s' := by
  unfold Clock.stepWait at hs
  split at hs
  case h_7 hpc =>
    obtain ⟨n, hn, rfl⟩ := Option.map_eq_some_iff.1 hs
    exact h.takeTurn (semWait_eq_some hn)
  case h_8 line hpc =>
    split_ifs at hs with h100 hnul
    · cases hs
      exact h.endLine hpc hnul
    · cases hs
      exact h.readChar hpc hnul
  case h_9 hpc =>
    obtain ⟨n, hn, rfl⟩ := Option.map_eq_some_iff.1 hs
    obtain ⟨m, hm, rfl⟩ := Option.map_eq_some_iff.1 hn
    exact h.giveTurn hpc hm
  case h_13 => cases hs
  all_goals
    cases hs
    refine h.quiet h.contents ?_ ?_ (Or.inr ?_) (Nat.le_refl _) rfl rfl
    · first | exact Nat.le_refl _ | exact Nat.zero_le _
    · first | exact Nat.le_refl _ | exact Nat.zero_le _
    · first | rfl | (show WaitPc.turn (ite _ _ _) = 0; split_ifs <;> rfl)

/-- post.c announces a line. -/
theorem Inv.announce (h : Inv times s) (hpc : s.postPc = .posting) (hsem : s.sem1 = some n) :
    Inv times { s with sem1 := some (n + 1)
                       posted := s.posted + 1
                       postPc := .copying (List.range (s.formatted.length + 1)) } := by
  have hturns := h.turns
  have hposted := h.answered (Or.inr (Or.inr (by rw [hpc]; exact Nat.one_pos)))
  have hcontents := h.contents
  simp only [Contents, hpc] at hcontents
  rw [hsem, hpc, PostPc.turn, Option.getD_some] at hturns
  refine ⟨⟨s.posted, rfl, hcontents.1, List.nodup_range, fun i => ?_⟩, ?_, fun _ => by rw [hposted], ?_, ?_, h.printed⟩
  · show s.timeStr i = _
    rw [hcontents.2 i, hcontents.1, length_strftime]
    split_ifs with hi
    · rfl
    · rw [List.mem_range] at hi
      rw [shown_of_le (by omega), shown_of_le (by omega)]
  · show n + 1 + s.waitPc.turn + s.sem2.getD 0 + 0 ≤ 1
    omega
  · rintro (ha | ha | ha)
    · have ha : 0 < s.sem2.getD 0 := ha
      omega
    · have ha : s.waitPc = .posting := ha
      rw [ha, WaitPc.turn] at hturns
      omega
    · cases ha
  · intro line hline
    have hline : s.waitPc = .printing line := hline
    rw [hline, WaitPc.turn] at hturns
    omega

/-- post.c gets the turn back. -/
theorem Inv.getTurn (h : Inv times s) (hpc : s.postPc = .waiting) (hsem : s.sem2 = some (n + 1)) :
    Inv times { s with sem2 := some n, postPc := .loop } := by
  have hturns := h.turns
  have hposted := h.answered (Or.inl (by rw [hsem]; exact Nat.succ_pos n))
  have hcontents := h.contents
  simp only [Contents, hpc] at hcontents
  rw [hsem, Option.getD_some] at hturns
  refine ⟨hcontents, ?_, ?_, fun _ => hposted, h.line, h.printed⟩
  · show s.sem1.getD 0 + s.waitPc.turn + n + 1 ≤ 1
    omega
  · rintro (ha | ⟨line, ha⟩)
    · have ha : 0 < s.sem1.getD 0 := ha
      omega
    · have ha : s.waitPc = .printing line := ha
      rw [ha, WaitPc.turn] at hturns
      omega

/-- post.c goes on without the turn, or with it as before. -/
theorem Inv.postQuiet (h : Inv times s) {pc : PostPc} (formatted : Text)
    (hcontents : Contents times { s with formatted := formatted, postPc := pc }) (hpc : pc.turn ≤ s.postPc.turn) :
    Inv times { s with formatted := formatted, postPc := pc } :=
  h.quiet hcontents (Nat.le_refl _) (Nat.le_refl _) (Or.inl rfl) hpc rfl rfl

theorem Inv.stepPost (h : Inv times s) (hs : stepPost (times s.posted) s = some s') : Inv times s' := by
  have hcontents := h.contents
  unfold Clock.stepPost at hs
  split at hs
  case h_1 hpc =>
    cases hs
    simp only [Contents, hpc] at hcontents
    refine h.postQuiet s.formatted ?_ ?_
    · split_ifs <;> exact hcontents
    · rw [hpc]
      split_ifs <;> exact Nat.le_refl _
  case h_2 hpc =>
    cases hs
    simp only [Contents, hpc] at hcontents
    refine h.postQuiet s.formatted ?_ ?_
    · split_ifs <;> exact hcontents
    · rw [hpc]
      split_ifs <;> exact Nat.le_refl _
  case h_3 => cases hs
  case h_4 hpc =>
    simp only [Contents, hpc] at hcontents
    split_ifs at hs
    · cases hs
      exact h.postQuiet _ ⟨rfl, hcontents⟩ (by rw [hpc]; exact Nat.le_refl _)
    · cases hs
      exact h.postQuiet s.formatted hcontents (Nat.zero_le _)
  case h_5 hpc =>
    obtain ⟨n, hn, rfl⟩ := Option.map_eq_some_iff.1 hs
    obtain ⟨m, hm, rfl⟩ := Option.map_eq_some_iff.1 hn
    exact h.announce hpc hm
  case h_6 hpc =>
    cases hs
    simp only [Contents, hpc] at hcontents
    obtain ⟨n, hn, -, -, hshown⟩ := hcontents
    refine h.postQuiet s.formatted (fun i => ?_) (Nat.zero_le _)
    show s.timeStr i = shown times s.posted i
    rw [hn, hshown i, if_neg List.not_mem_nil]
  case h_7 => cases hs
  case h_8 hpc =>
    obtain ⟨n, hn, rfl⟩ := Option.map_eq_some_iff.1 hs
    exact h.getTurn hpc (semWait_eq_some hn)
  case h_9 => cases hs

theorem Inv.stepCopy (h : Inv times s) (hs : stepCopy i s = some s') : Inv times s' := by
  have hcontents := h.contents
  unfold Clock.stepCopy at hs
  split at hs
  case h_2 => cases hs
  case h_1 rest hpc =>
    split_ifs at hs with hi
    cases hs
    simp only [Contents, hpc] at hcontents
    obtain ⟨n, hn, hformatted, hnodup, hshown⟩ := hcontents
    refine h.quiet ⟨n, hn, hformatted, hnodup.erase i, fun j => ?_⟩ (Nat.le_refl _) (Nat.le_refl _) (Or.inl rfl)
      (Nat.zero_le _) rfl rfl
    show Function.update s.timeStr i _ j = _
    by_cases hj : j = i
    · subst hj
      rw [Function.update_self, if_neg hnodup.not_mem_erase, hformatted]
      rfl
    · rw [Function.update_of_ne hj, hshown j]
      simp only [List.mem_erase_of_ne hj]

theorem Inv.stepInterrupt (h : Inv times s) {p : Program} (hs : stepInterrupt s p = some s') : Inv times s' := by
  cases p with
  | wait =>
    simp only [Clock.stepInterrupt] at hs
    split_ifs at hs
    cases hs
    exact h.quiet h.contents (Nat.le_refl _) (Nat.le_refl _) (Or.inr rfl) (Nat.le_refl _) rfl rfl
  | post =>
    simp only [Clock.stepInterrupt] at hs
    split_ifs at hs with hpc
    cases hs
    have hcontents := h.contents
    simp only [Contents, hpc] at hcontents
    exact h.quiet hcontents (Nat.le_refl _) (Nat.le_refl _) (Or.inl rfl) (Nat.zero_le _) rfl rfl

theorem Inv.step (h : Inv times s) {a : Act} (hs : step times s a = some s') : Inv times s' := by
  cases a with
  | wait => exact h.stepWait hs
  | post => exact h.stepPost hs
  | copy i => exact h.stepCopy hs
  | signal p =>
    cases hs
    exact h.quiet h.contents (Nat.le_refl _) (Nat.le_refl _) (Or.inl rfl) (Nat.le_refl _) rfl rfl
  | interrupt p =>
    have h' : Inv times { s with isContinue := Function.update s.isContinue p false } :=
      h.quiet h.contents (Nat.le_refl _) (Nat.le_refl _) (Or.inl rfl) (Nat.le_refl _) rfl rfl
    exact h'.stepInterrupt hs

theorem inv_of_reachable (h : (system times).Reachable s) : Inv times s := by
  have hind : (system times).Inductive (Inv times) :=
    ⟨fun s hs => by rw [show s = initial from hs]; exact inv_initial, fun s a s' hinv hs => hinv.step hs⟩
  exact hind.reachable h

end Semaphores.Clock
