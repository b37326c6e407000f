/-
  The two programs of the clock do not wait for one another for ever.
-/
import OsCourse.Semaphores.Clock

namespace Semaphores.Clock

open Transition System Text

variable {times : ℕ → Tm} {s s' : State}

/-- No signal comes, and post.c is started when wait.c is ready. -/
def Undisturbed (s : State) : Act → Prop
  | .wait | .copy _ => True
  | .post => s.postPc = .start → s.memReady = true
  | .signal _ | .interrupt _ => False

/-- How many steps there are up to the loop of wait.c. -/
def WaitPc.setup : WaitPc → ℕ
  | .start => 5
  | .created => 4
  | .mapped => 3
  | .init1 => 2
  | .init2 => 1
  | _ => 0

/-- The program is behind its loop. -/
def WaitPc.isOver : WaitPc → Bool
  | .destroy1 | .destroy2 | .unlinking | .left => true
  | _ => false

structure Live (s : State) : Prop where
  isContinue : ∀ p, s.isContinue p = true
  waitPc : s.waitPc.isOver = false
  postPc : s.postPc ≠ .failed ∧ s.postPc ≠ .left
  linked : s.waitPc.setup ≤ 4 → s.linked = true
  sized : s.waitPc.setup ≤ 3 → s.sized = true
  sem1 : s.waitPc.setup ≤ 2 → s.sem1.isSome
  sem2 : s.waitPc.setup ≤ 1 → s.sem2.isSome
  ready : s.memReady = true ↔ s.waitPc.setup = 0
  setup : s.memReady = true ∨ s.postPc = .start
  turns : 1 ≤ s.sem1.getD 0 + s.waitPc.turn + s.sem2.getD 0 + s.postPc.turn

theorem live_initial : Live initial := by
  constructor <;> simp [initial, WaitPc.setup, WaitPc.isOver, WaitPc.turn, PostPc.turn]

theorem Live.stepWait (h : Live s) (hs : stepWait s = some s') : Live s' := by
  obtain ⟨hcont, hwait, hpost, hlinked, hsized, hsem1, hsem2, hready, hsetup, hturns⟩ := h
  unfold Clock.stepWait at hs
  split at hs
  case h_7 hpc =>
    obtain ⟨n, hn, rfl⟩ := Option.map_eq_some_iff.1 hs
    have := semWait_eq_some hn
    constructor <;> grind [WaitPc.setup, WaitPc.isOver, WaitPc.turn]
  case h_9 hpc =>
    obtain ⟨n, hn, rfl⟩ := Option.map_eq_some_iff.1 hs
    obtain ⟨m, hm, rfl⟩ := Option.map_eq_some_iff.1 hn
    constructor <;> grind [WaitPc.setup, WaitPc.isOver, WaitPc.turn]
  case h_8 hpc =>
    split_ifs at hs <;> cases hs <;> constructor <;> grind [WaitPc.setup, WaitPc.isOver, WaitPc.turn]
  case h_13 => cases hs
  all_goals
    cases hs
    constructor <;> grind [WaitPc.setup, WaitPc.isOver, WaitPc.turn, PostPc.turn]

theorem Live.stepPost (h : Live s) (hstart : s.postPc = .start → s.memReady = true) {time : Tm}
    (hs : stepPost time s = some s') : Live s' := by
  obtain ⟨hcont, hwait, hpost, hlinked, hsized, hsem1, hsem2, hready, hsetup, hturns⟩ := h
  unfold Clock.stepPost at hs
  split at hs
  case h_3 => cases hs
  case h_4 hpc =>
    split_ifs at hs <;> cases hs <;> constructor <;> grind [PostPc.turn]
  case h_5 hpc =>
    obtain ⟨n, hn, rfl⟩ := Option.map_eq_some_iff.1 hs
    obtain ⟨m, hm, rfl⟩ := Option.map_eq_some_iff.1 hn
    constructor <;> grind [PostPc.turn]
  case h_7 => cases hs
  case h_8 hpc =>
    obtain ⟨n, hn, rfl⟩ := Option.map_eq_some_iff.1 hs
    have := semWait_eq_some hn
    constructor <;> grind [PostPc.turn]
  case h_9 => cases hs
  all_goals
    cases hs
    constructor <;> grind [PostPc.turn]

theorem Live.step (h : Live s) {a : Act} (ha : Undisturbed s a) (hs : step times s a = some s') : Live s' := by
  cases a with
  | wait => exact h.stepWait hs
  | post => exact h.stepPost ha hs
  | copy i =>
    have hs : stepCopy i s = some s' := hs
    obtain ⟨hcont, hwait, hpost, hlinked, hsized, hsem1, hsem2, hready, hsetup, hturns⟩ := h
    unfold Clock.stepCopy at hs
    split at hs
    · split_ifs at hs
      cases hs
      constructor <;> grind [PostPc.turn]
    · cases hs
  | signal p => exact ha.elim
  | interrupt p => exact ha.elim

theorem live_of_reachable (h : ((system times).restrict Undisturbed).Reachable s) : Live s := by
  have hind : ((system times).restrict Undisturbed).Inductive Live :=
    ⟨fun s hs => by rw [show s = initial from hs]; exact live_initial, fun s a s' hinv hs => hinv.step hs.2 hs.1⟩
  exact hind.reachable h

/-- How many bytes `strcpy` has still to store. -/
def PostPc.copies : PostPc → ℕ
  | .copying rest => rest.length + 1
  | _ => 0

/-- How far post.c is from announcing a line, when it has the turn. -/
def PostPc.distance : PostPc → ℕ
  | .start => 60
  | .opened => 59
  | .loop => 58
  | .posting => 57
  | _ => 0

/-- How far the programs are from the end of a line. -/
def rank (s : State) : ℕ :=
  match s.waitPc with
  | .posting => 200 + s.postPc.copies
  | .printing line => 21 - line.length
  | pc =>
    if 0 < pc.setup then 1000 + pc.setup
    else if 0 < s.sem1.getD 0 then 30 + if pc = .loop then 1 else 0
    else if 0 < s.sem2.getD 0 then 100 + s.postPc.copies
    else s.postPc.distance

/-- wait.c is at its semaphore, or just before. -/
def WaitPc.idle (pc : WaitPc) : Prop := pc = .loop ∨ pc = .waiting

theorem rank_of_idle (hpc : s.waitPc.idle) (hsem1 : s.sem1.getD 0 = 0) :
    rank s = if 0 < s.sem2.getD 0 then 100 + s.postPc.copies else s.postPc.distance := by
  rcases hpc with hpc | hpc <;> simp [rank, hpc, WaitPc.setup, hsem1]

theorem rank_of_announced (hpc : s.waitPc.idle) (hsem1 : 0 < s.sem1.getD 0) : rank s ≤ 31 := by
  rcases hpc with hpc | hpc <;> simp [rank, hpc, WaitPc.setup, hsem1]

/-- While wait.c waits, post.c can go on. -/
theorem exists_step_of_idle (hlive : Live s) (hinv : Inv times s) (hpc : s.waitPc.idle) (hsem1 : s.sem1.getD 0 = 0) :
    ∃ a s', step times s a = some s' ∧ Undisturbed s a ∧ s'.printed = s.printed ∧ rank s' < rank s := by
  have hsetup : s.waitPc.setup = 0 := by rcases hpc with hpc | hpc <;> rw [hpc] <;> rfl
  have hturn : s.waitPc.turn = 0 := by rcases hpc with hpc | hpc <;> rw [hpc] <;> rfl
  have hready := hlive.ready.2 hsetup
  have hle := hinv.turns
  have hge := hlive.turns
  obtain ⟨n, hn⟩ := Option.isSome_iff_exists.1 (hlive.sem1 (by omega))
  obtain ⟨m, hm⟩ := Option.isSome_iff_exists.1 (hlive.sem2 (by omega))
  rw [hturn, hm, Option.getD_some, hsem1] at hle hge
  have hrank : ∀ s' : State, s'.waitPc = s.waitPc → s'.sem1 = s.sem1 → s'.sem2 = some m →
      rank s' = if 0 < m then 100 + s'.postPc.copies else s'.postPc.distance := by
    intro s' hpc' hsem1' hsem2'
    rw [rank_of_idle (hpc' ▸ hpc) (hsem1' ▸ hsem1), hsem2', Option.getD_some]
  rw [hrank s rfl rfl hm]
  have hmine : 0 < s.postPc.turn → m = 0 := by omega
  have hsem2 : s.postPc.turn = 0 → 0 < m := by omega
  cases hpost : s.postPc with
  | start =>
    obtain rfl := hmine (by rw [hpost]; exact Nat.one_pos)
    refine ⟨.post, { s with postPc := .opened }, ?_, fun _ => hready, rfl, ?_⟩
    · simp [step, stepPost, hpost, hlive.linked (by omega)]
    · refine lt_of_eq_of_lt (hrank _ rfl rfl hm) ?_
      show 59 < 60
      decide
  | opened =>
    obtain rfl := hmine (by rw [hpost]; exact Nat.one_pos)
    refine ⟨.post, { s with postPc := .loop }, ?_, fun _ => hready, rfl, ?_⟩
    · simp [step, stepPost, hpost, hlive.sized (by omega), hready]
    · refine lt_of_eq_of_lt (hrank _ rfl rfl hm) ?_
      show 58 < 59
      decide
  | failed => exact absurd hpost hlive.postPc.1
  | loop =>
    obtain rfl := hmine (by rw [hpost]; exact Nat.one_pos)
    refine ⟨.post, { s with formatted := strftime (times s.posted), postPc := .posting }, ?_, fun _ => hready, rfl, ?_⟩
    · simp [step, stepPost, hpost, hlive.isContinue]
    · refine lt_of_eq_of_lt (hrank _ rfl rfl hm) ?_
      show 57 < 58
      decide
  | posting =>
    obtain rfl := hmine (by rw [hpost]; exact Nat.one_pos)
    refine ⟨.post, { s with sem1 := some (n + 1)
                            posted := s.posted + 1
                            postPc := .copying (List.range (s.formatted.length + 1)) }, ?_, fun _ => hready, rfl, ?_⟩
    · simp [step, stepPost, hpost, semPost, hn]
    · refine Nat.lt_of_le_of_lt (rank_of_announced hpc (Nat.succ_pos n)) ?_
      show 31 < 57
      decide
  | copying rest =>
    have hpos := hsem2 (by rw [hpost]; rfl)
    rw [if_pos hpos]
    cases rest with
    | nil =>
      refine ⟨.post, { s with postPc := .waiting }, ?_, fun _ => hready, rfl, ?_⟩
      · simp [step, stepPost, hpost]
      · refine lt_of_eq_of_lt (hrank _ rfl rfl hm) ?_
        rw [if_pos hpos]
        show 100 + 0 < 100 + (0 + 1)
        decide
    | cons i rest =>
      refine ⟨.copy i, { s with timeStr := Function.update s.timeStr i ((s.formatted ++ [nul]).getD i nul)
                                postPc := .copying rest }, ?_, trivial, rfl, ?_⟩
      · simp [step, stepCopy, hpost]
      · refine lt_of_eq_of_lt (hrank _ rfl rfl hm) ?_
        rw [if_pos hpos]
        show 100 + (rest.length + 1) < 100 + (rest.length + 1 + 1)
        omega
  | waiting =>
    have hpos := hsem2 (by rw [hpost]; rfl)
    obtain rfl : m = 1 := by omega
    refine ⟨.post, { s with sem2 := some 0, postPc := .loop }, ?_, fun _ => hready, rfl, ?_⟩
    · simp [step, stepPost, hpost, semWait, hm]
    · refine lt_of_eq_of_lt (rank_of_idle hpc hsem1) ?_
      show 58 < 100 + 0
      decide
  | left => exact absurd hpost hlive.postPc.2

/-- From every state some step brings the end of a line nearer. -/
theorem exists_step (hlive : Live s) (hinv : Inv times s) :
    ∃ a s', step times s a = some s' ∧ Undisturbed s a ∧
      (s.printed.length < s'.printed.length ∨ s'.printed = s.printed ∧ rank s' < rank s) := by
  by_cases hidle : s.waitPc.idle ∧ s.sem1.getD 0 = 0
  · obtain ⟨a, s', hs, ha, hprinted, hlt⟩ := exists_step_of_idle hlive hinv hidle.1 hidle.2
    exact ⟨a, s', hs, ha, Or.inr ⟨hprinted, hlt⟩⟩
  · have hover := hlive.waitPc
    cases hpc : s.waitPc with
    | loop =>
      have hsem : 0 < s.sem1.getD 0 := Nat.pos_of_ne_zero fun h0 => hidle ⟨Or.inl hpc, h0⟩
      refine ⟨.wait, { s with waitPc := .waiting }, ?_, trivial, Or.inr ⟨rfl, ?_⟩⟩
      · simp [step, stepWait, hpc, hlive.isContinue]
      · simp [rank, hpc, WaitPc.setup, hsem]
    | waiting =>
      have hsem : 0 < s.sem1.getD 0 := Nat.pos_of_ne_zero fun h0 => hidle ⟨Or.inr hpc, h0⟩
      obtain ⟨n, hn⟩ : ∃ n, s.sem1 = some (n + 1) := by
        cases h1 : s.sem1 with
        | none => rw [h1] at hsem; cases hsem
        | some n =>
          rw [h1] at hsem
          exact ⟨n - 1, congrArg some (by have : 0 < n := hsem; omega)⟩
      refine ⟨.wait, { s with sem1 := some n, waitPc := .printing [] }, ?_, trivial, Or.inr ⟨rfl, ?_⟩⟩
      · simp [step, stepWait, hpc, semWait, hn]
      · simp [rank, hpc, WaitPc.setup, hsem]
    | printing line =>
      have hlen := (hinv.line line hpc).length_le
      by_cases hnul : s.timeStr line.length = nul
      · refine ⟨.wait, { s with printed := s.printed ++ [line], waitPc := .posting }, ?_, trivial, Or.inl ?_⟩
        · simp [step, stepWait, hpc, hnul, show line.length < 100 by omega]
        · simp
      · refine ⟨.wait, { s with waitPc := .printing (line ++ [s.timeStr line.length]) }, ?_, trivial, Or.inr ⟨rfl, ?_⟩⟩
        · simp [step, stepWait, hpc, hnul, show line.length < 100 by omega]
        · simp only [rank, hpc, List.length_append, List.length_singleton]
          omega
    | posting =>
      obtain ⟨m, hm⟩ := Option.isSome_iff_exists.1 (hlive.sem2 (by rw [hpc]; decide))
      refine ⟨.wait, { s with sem2 := some (m + 1), waitPc := .loop }, ?_, trivial, Or.inr ⟨rfl, ?_⟩⟩
      · simp [step, stepWait, hpc, semPost, hm]
      · have hsem1 : s.sem1.getD 0 = 0 := by
          have := hinv.turns
          rw [hpc, WaitPc.turn] at this
          omega
        refine lt_of_eq_of_lt (rank_of_idle (Or.inl rfl) hsem1) ?_
        simp [rank, hpc]
    | destroy1 | destroy2 | unlinking | left =>
      rw [hpc] at hover
      cases hover
    | start =>
      refine ⟨.wait, { s with linked := true, waitPc := .created }, ?_, trivial, Or.inr ⟨rfl, ?_⟩⟩
      · simp [step, stepWait, hpc]
      · simp [rank, hpc, WaitPc.setup]
    | created =>
      refine ⟨.wait, { s with sized := true, waitPc := .mapped }, ?_, trivial, Or.inr ⟨rfl, ?_⟩⟩
      · simp [step, stepWait, hpc]
      · simp [rank, hpc, WaitPc.setup]
    | mapped =>
      refine ⟨.wait, { s with sem1 := some 0, waitPc := .init1 }, ?_, trivial, Or.inr ⟨rfl, ?_⟩⟩
      · simp [step, stepWait, hpc]
      · simp [rank, hpc, WaitPc.setup]
    | init1 =>
      refine ⟨.wait, { s with sem2 := some 0, waitPc := .init2 }, ?_, trivial, Or.inr ⟨rfl, ?_⟩⟩
      · simp [step, stepWait, hpc]
      · simp [rank, hpc, WaitPc.setup]
    | init2 =>
      have hpost : s.postPc = .start := by
        refine hlive.setup.resolve_left fun hready => ?_
        have := hlive.ready.1 hready
        rw [hpc] at this
        cases this
      have hturns := hinv.turns
      rw [hpost, PostPc.turn] at hturns
      refine ⟨.wait, { s with memReady := true, waitPc := .loop }, ?_, trivial, Or.inr ⟨rfl, ?_⟩⟩
      · simp [step, stepWait, hpc]
      · refine lt_of_eq_of_lt (rank_of_idle (Or.inl rfl) (show s.sem1.getD 0 = 0 by omega)) ?_
        rw [if_neg (show ¬ 0 < s.sem2.getD 0 by omega)]
        simp [rank, hpc, hpost, WaitPc.setup, PostPc.distance]

/-- **The clock goes on.**  As long as no signal comes, and if post.c has been started when
    wait.c is ready, the two programs can print one more line. -/
theorem keeps_printing (times : ℕ → Tm) {s : State} (h : ((system times).restrict Undisturbed).Reachable s) :
    ∃ tr s', ((system times).restrict Undisturbed).Steps s tr s' ∧ s.printed.length < s'.printed.length := by
  induction hr : rank s using Nat.strongRecOn generalizing s with
  | _ r ih =>
    have hreach : (system times).Reachable s := by
      obtain ⟨tr, he⟩ := h
      exact ⟨tr, (exec_restrict.1 he).1⟩
    obtain ⟨a, s₁, hs, ha, hlt | ⟨hprinted, hrank⟩⟩ := exists_step (live_of_reachable h) (inv_of_reachable hreach)
    · exact ⟨[(s, a)], s₁, .single ⟨hs, ha⟩, hlt⟩
    · obtain ⟨tr, s', hsteps, hlt⟩ := ih _ (hr ▸ hrank) (h.step ⟨hs, ha⟩) rfl
      exact ⟨(s, a) :: tr, s', .cons ⟨hs, ha⟩ hsteps, hprinted ▸ hlt⟩

/-- The same time again and again. -/
def midnight : Tm := ⟨2024, 1, 1, 0, 0, 0, by decide, by decide, by decide, by decide, by decide, by decide, by decide⟩

theorem keeps_printing_initial : ∃ tr s', ((system fun _ => midnight).restrict Undisturbed).Steps initial tr s' ∧
    0 < s'.printed.length :=
  keeps_printing (fun _ => midnight) (Reachable.init rfl)

end Semaphores.Clock
