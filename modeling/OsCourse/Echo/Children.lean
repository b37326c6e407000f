/-
  The forking echo server of seminar 11 (TCPEchoServer-Fork.c): the children that serve the
  clients, and the loop that cleans up the zombies.  Between `fork` and the statement that
  counts the child stand a `printf` and a `close`, and a child that has been waited for is
  counted until the end of its round.
-/
import Mathlib.Algebra.Group.Nat.Defs
import OsCourse.Lib.Transition

namespace Echo.Children

open Transition System

/-- Where `main` is. -/
inductive Pc where
  /-- in `AcceptTCPConnection` -/
  | accepting
  /-- before `fork` -/
  | forking
  /-- the parent, before `printf` -/
  | printing
  /-- before `close(clntSock)` -/
  | closing
  /-- before `childProcCount++` -/
  | counting
  /-- at `while (childProcCount)` -/
  | testing
  /-- before `waitpid` -/
  | waiting
  /-- before `childProcCount--` -/
  | collecting
  /-- in `DieWithError("accept() failed")` -/
  | acceptFailed
  /-- in `DieWithError("fork() failed")` -/
  | forkFailed
  /-- in `DieWithError("waitpid() failed")` -/
  | waitpidFailed
  deriving DecidableEq

structure State where
  pc : Pc
  childProcCount : BitVec 32
  /-- the children that are in `HandleTCPClient` -/
  running : ℕ
  /-- the children that have exited and have not been waited for -/
  zombies : ℕ
  deriving DecidableEq

inductive Act where
  | accept (ok : Bool)
  | fork (ok : Bool)
  | printf
  | close
  | increment
  /-- the test of the loop -/
  | test
  | waitpid
  | decrement
  /-- a child comes to `exit(0)` -/
  | childExits
  deriving DecidableEq

def initial : State where
  pc := .accepting
  childProcCount := 0
  running := 0
  zombies := 0

/-- What `waitpid((pid_t) -1, NULL, WNOHANG)` finds. -/
inductive Waited where
  | error
  | noZombie
  | child
  deriving DecidableEq

def waitpid (s : State) : Waited :=
  if s.running + s.zombies = 0 then .error else if s.zombies = 0 then .noZombie else .child

/-- At most `limit` processes are there at a time: a `fork` of one more fails. -/
def step (limit : ℕ) (s : State) : Act → Option State
  | .accept ok =>
    if s.pc = .accepting then some { s with pc := if ok then .forking else .acceptFailed } else none
  | .fork ok =>
    if s.pc = .forking then
      if ok then
        if s.running + s.zombies < limit then some { s with running := s.running + 1, pc := .printing } else none
      else some { s with pc := .forkFailed }
    else none
  | .printf => if s.pc = .printing then some { s with pc := .closing } else none
  | .close => if s.pc = .closing then some { s with pc := .counting } else none
  | .increment =>
    if s.pc = .counting then some { s with childProcCount := s.childProcCount + 1, pc := .testing } else none
  | .test =>
    if s.pc = .testing then some { s with pc := if s.childProcCount = 0 then .accepting else .waiting } else none
  | .waitpid =>
    if s.pc = .waiting then
      match waitpid s with
      | .error => some { s with pc := .waitpidFailed }
      | .noZombie => some { s with pc := .accepting }
      | .child => some { s with zombies := s.zombies - 1, pc := .collecting }
    else none
  | .decrement =>
    if s.pc = .collecting then some { s with childProcCount := s.childProcCount - 1, pc := .testing } else none
  | .childExits =>
    if 0 < s.running then some { s with running := s.running - 1, zombies := s.zombies + 1 } else none

def system (limit : ℕ) : System State Act := ofFn initial (step limit)

/-- The child that `fork` has made and that has not been counted yet. -/
def Pc.forked : Pc → ℕ
  | .printing | .closing | .counting => 1
  | _ => 0

/-- The child that has been waited for and that is still counted. -/
def Pc.collected : Pc → ℕ
  | .collecting => 1
  | _ => 0

variable {limit : ℕ} {s s' : State} {a : Act}

/-- What `childProcCount` is at each place of `main`. -/
structure Inv (limit : ℕ) (s : State) : Prop where
  count : s.childProcCount.toNat + s.pc.forked = s.running + s.zombies + s.pc.collected
  le : s.running + s.zombies + s.pc.collected ≤ limit
  waiting : s.pc = .waiting → s.childProcCount ≠ 0
  pc : s.pc ≠ .waitpidFailed

/-- What `waitpid` comes to: there is a child, so that it has no error. -/
theorem Inv.waitpid_cases (h : Inv limit s) (hs : step limit s .waitpid = some s') :
    s.pc = .waiting ∧ (s.zombies = 0 ∧ s' = { s with pc := .accepting } ∨
      s.zombies ≠ 0 ∧ s' = { s with zombies := s.zombies - 1, pc := .collecting }) := by
  have hcount := h.count
  simp only [Children.step] at hs
  split_ifs at hs with hpc
  refine ⟨hpc, ?_⟩
  rw [hpc] at hcount
  have hcount : s.childProcCount.toNat = s.running + s.zombies := hcount
  have hpos : s.running + s.zombies ≠ 0 := by
    intro h0
    rw [h0] at hcount
    exact h.waiting hpc (BitVec.eq_of_toNat_eq hcount)
  unfold waitpid at hs
  rw [if_neg hpos] at hs
  by_cases hzombies : s.zombies = 0
  · rw [if_pos hzombies] at hs
    cases hs
    exact Or.inl ⟨hzombies, rfl⟩
  · rw [if_neg hzombies] at hs
    cases hs
    exact Or.inr ⟨hzombies, rfl⟩

/-- `main` goes from one place to another and changes nothing. -/
theorem Inv.goto (h : Inv limit s) {pc : Pc} (hforked : pc.forked = s.pc.forked)
    (hcollected : pc.collected = s.pc.collected) (hwaiting : pc = .waiting → s.childProcCount ≠ 0)
    (hpc : pc ≠ .waitpidFailed) : Inv limit { s with pc := pc } where
  count := by
    rw [show State.pc _ = pc from rfl, hforked, hcollected]
    exact h.count
  le := by
    rw [show State.pc _ = pc from rfl, hcollected]
    exact h.le
  waiting := hwaiting
  pc := hpc

theorem Inv.step (hlimit : limit < 2 ^ 32) (h : Inv limit s) (hs : step limit s a = some s') : Inv limit s' := by
  obtain ⟨pc, count, running, zombies⟩ := s
  have hcount := h.count
  have hle := h.le
  cases a with
  | accept ok =>
    simp only [Children.step] at hs
    split at hs
    · next hpc =>
      cases hpc
      cases hs
      cases ok
      · exact h.goto rfl rfl nofun nofun
      · exact h.goto rfl rfl nofun nofun
    · cases hs
  | fork ok =>
    simp only [Children.step] at hs
    split_ifs at hs with hpc hok hroom
    · cases hpc
      cases hs
      have hcount : count.toNat = running + zombies := hcount
      refine ⟨?_, ?_, nofun, nofun⟩
      · show count.toNat + 1 = running + 1 + zombies
        omega
      · show running + 1 + zombies ≤ limit
        omega
    · cases hpc
      cases hs
      exact h.goto rfl rfl nofun nofun
  | printf | close =>
    simp only [Children.step] at hs
    split_ifs at hs with hpc
    cases hpc
    cases hs
    exact h.goto rfl rfl nofun nofun
  | increment =>
    simp only [Children.step] at hs
    split_ifs at hs with hpc
    cases hpc
    cases hs
    refine ⟨?_, hle, nofun, nofun⟩
    have hcount : count.toNat + 1 = running + zombies := hcount
    have hle : running + zombies ≤ limit := hle
    show (count + 1).toNat = running + zombies
    bv_omega
  | test =>
    simp only [Children.step] at hs
    split_ifs at hs with hpc hzero
    · cases hpc
      cases hs
      exact h.goto rfl rfl nofun nofun
    · cases hpc
      cases hs
      exact h.goto rfl rfl (fun _ => hzero) nofun
  | waitpid =>
    obtain ⟨hpc, ⟨-, rfl⟩ | ⟨hzombies, rfl⟩⟩ := h.waitpid_cases hs
    · cases hpc
      exact h.goto rfl rfl nofun nofun
    · cases hpc
      have hzombies : zombies ≠ 0 := hzombies
      have hcount : count.toNat = running + zombies := hcount
      have hle : running + zombies ≤ limit := hle
      refine ⟨?_, ?_, nofun, nofun⟩
      · show count.toNat = running + (zombies - 1) + 1
        omega
      · show running + (zombies - 1) + 1 ≤ limit
        omega
  | decrement =>
    simp only [Children.step] at hs
    split_ifs at hs with hpc
    cases hpc
    cases hs
    have hcount : count.toNat = running + zombies + 1 := hcount
    have hle : running + zombies + 1 ≤ limit := hle
    refine ⟨?_, Nat.le_of_succ_le hle, nofun, nofun⟩
    show (count - 1).toNat = running + zombies
    bv_omega
  | childExits =>
    simp only [Children.step] at hs
    split_ifs at hs with hrunning
    cases hs
    have hsum : running - 1 + (zombies + 1) = running + zombies := by omega
    refine ⟨?_, ?_, h.waiting, h.pc⟩
    · show count.toNat + pc.forked = running - 1 + (zombies + 1) + pc.collected
      rw [hsum]
      exact hcount
    · show running - 1 + (zombies + 1) + pc.collected ≤ limit
      rw [hsum]
      exact hle

theorem inv_of_reachable (hlimit : limit < 2 ^ 32) (h : (system limit).Reachable s) : Inv limit s := by
  have hind : (system limit).Inductive (Inv limit) := by
    refine ⟨fun s hs => ?_, fun s a s' hinv hs => hinv.step hlimit hs⟩
    rw [show s = initial from hs]
    exact ⟨rfl, Nat.zero_le _, nofun, nofun⟩
  exact hind.reachable h

/-- One more step, for the number of children that have exited since the cleaning loop was left:
    by its test, or by a `waitpid` that finds no zombie. -/
def countExit (n : ℕ) (x : State × Act) : ℕ :=
  match x.2 with
  | .childExits => n + 1
  | .test => if x.1.childProcCount = 0 then 0 else n
  | .waitpid => if x.1.zombies = 0 then 0 else n
  | _ => n

/-- How many children have exited since the cleaning loop was left. -/
def exitsSince (tr : List (State × Act)) : ℕ := tr.foldl countExit 0

/-- The server is outside of the cleaning loop. -/
def Pc.Outside : Pc → Prop
  | .accepting | .forking | .printing | .closing | .counting => True
  | _ => False

/-- A step that ends outside of the loop. -/
theorem zombies_step (h : Inv limit s) (hs : step limit s a = some s') {n : ℕ}
    (hn : s.pc.Outside → s.zombies = n) (houtside : s'.pc.Outside) : s'.zombies = countExit n (s, a) := by
  obtain ⟨pc, count, running, zombies⟩ := s
  cases a with
  | accept ok =>
    simp only [step] at hs
    split at hs
    · next hpc =>
      cases hpc
      cases hs
      exact hn trivial
    · cases hs
  | printf | close =>
    simp only [step] at hs
    split_ifs at hs with hpc
    cases hpc
    cases hs
    exact hn trivial
  | fork ok =>
    simp only [step] at hs
    split_ifs at hs with hpc
    · cases hpc
      cases hs
      exact hn trivial
    · cases hs
      exact houtside.elim
  | increment | decrement =>
    simp only [step] at hs
    split_ifs at hs
    cases hs
    exact houtside.elim
  | test =>
    have hcount := h.count
    simp only [step] at hs
    split_ifs at hs with hpc hzero
    · -- nobody is left who could be a zombie
      cases hpc
      cases hs
      have hzero : count = 0 := hzero
      have hcount : count.toNat = running + zombies := hcount
      rw [hzero] at hcount
      have hcount : 0 = running + zombies := hcount
      rw [countExit, if_pos hzero]
      show zombies = 0
      omega
    · cases hs
      exact houtside.elim
  | waitpid =>
    obtain ⟨-, ⟨hzombies, rfl⟩ | ⟨-, rfl⟩⟩ := h.waitpid_cases hs
    · rw [countExit, if_pos hzombies]
      exact hzombies
    · exact houtside.elim
  | childExits =>
    simp only [step] at hs
    split_ifs at hs
    cases hs
    exact congrArg (· + 1) (hn houtside)

/-- **The children of the server.**  `childProcCount` is the number of the children that have not
    been waited for, without the one that `fork` has just made and with the one that `waitpid`
    has just found.  `waitpid` never fails, and the zombies that are there while the server is
    outside of the cleaning loop have exited since it has left the loop. -/
theorem childProcCount_eq {limit : ℕ} (hlimit : limit < 2 ^ 32) {tr : List (State × Act)} {s : State}
    (h : (system limit).Exec tr s) :
    s.childProcCount.toNat + s.pc.forked = s.running + s.zombies + s.pc.collected ∧
      s.pc ≠ .waitpidFailed ∧ (s.pc.Outside → s.zombies = exitsSince tr) := by
  have hinv := inv_of_reachable hlimit ⟨tr, h⟩
  refine ⟨hinv.count, hinv.pc, ?_⟩
  induction h with
  | init hi =>
    rw [show _ = initial from hi]
    exact fun _ => rfl
  | @snoc tr s a s' he hs ih =>
    have hinv' := inv_of_reachable hlimit ⟨tr, he⟩
    rw [exitsSince, List.foldl_append]
    exact zombies_step hinv' hs (ih hinv')

/-- Two clients.  The child of the first one exits while the server waits for the second one, and
    is waited for in the loop; the second child has been made and not counted yet. -/
theorem childProcCount_eq_two : ∃ (tr : List (State × Act)) (s : State), s.pc = .closing ∧ exitsSince tr = 1 ∧
    s.childProcCount.toNat + s.pc.forked = s.running + s.zombies + s.pc.collected ∧
      s.pc ≠ .waitpidFailed ∧ (s.pc.Outside → s.zombies = exitsSince tr) := by
  obtain ⟨s, -, he, hpc⟩ := exec_of_any initial (step 100) [.accept true, .fork true, .printf, .close, .increment,
    .test, .waitpid, .childExits, .accept true, .fork true, .printf] (fun s => s.pc = .closing) (by decide)
  exact ⟨_, s, of_decide_eq_true hpc, by decide, childProcCount_eq (by decide) he⟩

end Echo.Children
