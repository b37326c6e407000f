/-
  The shared counter of dz7/counter7.c: processes that find, use and remove a System V
  segment, and what they print.
-/
import OsCourse.Lib.Named
import OsCourse.Lib.Tickets
import OsCourse.Lib.Traces

namespace Counter

/-- A line of the output: who has printed it, and the value of which object it shows. -/
structure Print (ι : Type) where
  process : ι
  object : ℕ
  value : ℤ
  deriving DecidableEq

namespace SysV

open Transition System Tickets

/-- `struct shared_data`, and how many processes have the segment attached. -/
structure Segment where
  counter : BitVec 32
  processCount : BitVec 32
  nattch : ℕ

/-- A segment as `shmget` creates it. -/
def Segment.zeroed : Segment := { counter := 0, processCount := 0, nattch := 0 }

/-- Where `main` and `cleanup` are, with `shm_id`. -/
inductive Pc where
  /-- before `shmget` -/
  | start
  | got (g : ℕ)
  | attached (g : ℕ)
  /-- in the loop `while (keep_running)` -/
  | counting (g : ℕ)
  /-- `remaining == 0`; before `shmdt` -/
  | last (g : ℕ)
  /-- before `shmctl(shm_id, IPC_RMID, NULL)` -/
  | removing (g : ℕ)
  /-- `remaining` is another number; before `shmdt` -/
  | leaving (g : ℕ)
  | finished (g : ℕ)
  /-- `shmat` has failed -/
  | failed (g : ℕ)
  deriving DecidableEq

inductive Act where
  | shmget
  | shmat
  /-- `atomic_fetch_add(&shared_mem->process_count, 1)` -/
  | register
  /-- `atomic_fetch_add(&shared_mem->counter, 1)` and the line with the old value -/
  | count
  /-- a signal has ended the loop: `atomic_fetch_sub(&shared_mem->process_count, 1)` -/
  | deregister
  | shmdt
  | rmid
  deriving DecidableEq

/-- `shmat` finds the segment: it has its key, or some process has it attached. -/
def serves (shm : Named Segment) (g : ℕ) : Bool :=
  shm.current == some g || (shm.objects[g]?).any fun o => 0 < o.nattch

/-- A step of a process. -/
def stepProcess (shm : Named Segment) : Pc → Act → Option (Named Segment × Pc)
  | .start, .shmget => some ((shm.openOrCreate .zeroed).1, .got (shm.openOrCreate .zeroed).2)
  | .got g, .shmat =>
    if serves shm g then some (shm.modify g fun o => { o with nattch := o.nattch + 1 }, .attached g)
    else some (shm, .failed g)
  | .attached g, .register =>
    some (shm.modify g fun o => { o with processCount := o.processCount + 1 }, .counting g)
  | .counting g, .count => some (shm.modify g fun o => { o with counter := o.counter + 1 }, .counting g)
  | .counting g, .deregister =>
    (shm.objects[g]?).map fun o =>
      (shm.modify g fun o => { o with processCount := o.processCount - 1 },
        if o.processCount - 1 = 0 then .last g else .leaving g)
  | .last g, .shmdt => some (shm.modify g fun o => { o with nattch := o.nattch - 1 }, .removing g)
  | .leaving g, .shmdt => some (shm.modify g fun o => { o with nattch := o.nattch - 1 }, .finished g)
  | .removing g, .rmid => some (if shm.current = some g then shm.unlink else shm, .finished g)
  | _, _ => none

structure State (ι : Type) where
  shm : Named Segment
  pcs : ι → Pc

variable {ι : Type} [DecidableEq ι]

def initial : State ι := { shm := .empty, pcs := fun _ => .start }

def step (s : State ι) (a : ι × Act) : Option (State ι) :=
  (stepProcess s.shm (s.pcs a.1) a.2).map fun x => { shm := x.1, pcs := Function.update s.pcs a.1 x.2 }

/-- Any processes, in any order of their steps. -/
def system (ι : Type) [DecidableEq ι] : System (State ι) (ι × Act) := ofFn initial step

/-- The line that is printed in this step. -/
def printed (s : State ι) : ι × Act → Option (Print ι)
  | (i, .count) =>
    match s.pcs i with
    | .counting g => (s.shm.objects[g]?).map fun o => { process := i, object := g, value := o.counter.toInt }
    | _ => none
  | _ => none

/-- The processes that are in their loops use the same segment. -/
def SameSegment (s : State ι) : Prop := ∀ i j g h, s.pcs i = .counting g → s.pcs j = .counting h → g = h

/-- Both processes are in their loops. -/
def Together (i j : ι) (s : State ι) : Prop := (∃ g, s.pcs i = .counting g) ∧ ∃ g, s.pcs j = .counting g

/-- Two processes that are in their loops at the same time never print the same value. -/
def Distinct (tr : List (State ι × (ι × Act))) (s : State ι) : Prop :=
  ∀ i j, i ≠ j → (Together i j s ∨ ∃ x ∈ tr, Together i j x.1) →
    ∀ p ∈ events printed tr, ∀ q ∈ events printed tr, p.process = i → q.process = j → p.value ≠ q.value

/-- The process is between its `shmget` and its `fetch_sub` on the segment. -/
def Pc.uses : Pc → Option ℕ
  | .got g | .attached g | .counting g => some g
  | _ => none

/-- The step does not take the key from a segment that another process uses. -/
def Quiet (s : State ι) : ι × Act → Prop
  | (i, .rmid) => ∀ g, s.pcs i = .removing g → s.shm.current = some g → ∀ j, (s.pcs j).uses ≠ some g
  | _ => True

/-- The values that have been printed of the segment. -/
def valuesOf (g : ℕ) (l : List (Print ι)) : List ℤ := (l.filter fun p => p.object = g).map Print.value

variable {shm shm' : Named Segment} {pc pc' : Pc} {act : Act} {s s' : State ι} {i : ι}
  {tr : List (State ι × (ι × Act))} {g : ℕ}

theorem step_eq_some (h : step s (i, act) = some s') : ∃ shm' pc',
    stepProcess s.shm (s.pcs i) act = some (shm', pc') ∧
      s' = { shm := shm', pcs := Function.update s.pcs i pc' } := by
  obtain ⟨⟨shm', pc'⟩, hs, rfl⟩ := Option.map_eq_some_iff.1 h
  exact ⟨shm', pc', hs, rfl⟩

/-! ## The steps -/

/-- The segment of the process. -/
def Pc.segment : Pc → Option ℕ
  | .start => none
  | .got g | .attached g | .counting g | .last g | .removing g | .leaving g | .finished g | .failed g => some g

/-- What a step of a process can be. -/
inductive ProcessStep (shm : Named Segment) : Pc → Act → Named Segment → Pc → Prop
  | shmget : ProcessStep shm .start .shmget (shm.openOrCreate .zeroed).1 (.got (shm.openOrCreate .zeroed).2)
  | failed (g : ℕ) : ProcessStep shm (.got g) .shmat shm (.failed g)
  /-- the process works on its segment; only `count` touches the counter -/
  | work {pc pc' : Pc} {act : Act} {g : ℕ} {f : Segment → Segment} (hact : act ≠ .shmget ∧ act ≠ .rmid)
      (hpc : pc.segment = some g) (hpc' : pc'.segment = some g) (huses : pc'.uses = none ∨ pc'.uses = pc.uses)
      (hcounter : ∀ o, (f o).counter = if act = .count ∧ pc = .counting g then o.counter + 1 else o.counter) :
      ProcessStep shm pc act (shm.modify g f) pc'
  | rmid (g : ℕ) :
      ProcessStep shm (.removing g) .rmid (if shm.current = some g then shm.unlink else shm) (.finished g)

theorem processStep_of_stepProcess (h : stepProcess shm pc act = some (shm', pc')) :
    ProcessStep shm pc act shm' pc' := by
  unfold stepProcess at h
  split at h
  case h_1 =>
    cases h
    exact .shmget
  case h_2 g =>
    split_ifs at h <;> cases h
    · exact .work (by simp) rfl rfl (Or.inr rfl) fun o => by simp
    · exact .failed g
  case h_5 =>
    obtain ⟨o, -, ho⟩ := Option.map_eq_some_iff.1 h
    cases ho
    refine .work (by simp) rfl ?_ (Or.inl ?_) fun o => by simp
    · split_ifs <;> rfl
    · split_ifs <;> rfl
  case h_8 g =>
    cases h
    exact .rmid g
  case h_9 => cases h
  all_goals
    cases h
    exact .work (by simp) rfl rfl (by simp [Pc.uses]) fun o => by simp

/-! ## Who uses the segment -/

/-- The segments that are used are the one that has the key. -/
def Held (s : State ι) : Prop := ∀ i g, (s.pcs i).uses = some g → s.shm.current = some g

/-- The process `i` has gone on, and the key has stayed or come to the segment of `i`. -/
theorem Held.update (h : Held s) (hi : ∀ g, pc'.uses = some g → shm'.current = some g)
    (hkeep : ∀ j g, (s.pcs j).uses = some g → s.shm.current = some g → shm'.current = some g) :
    Held { shm := shm', pcs := Function.update s.pcs i pc' } := by
  refine (Function.forall_update_iff s.pcs fun _ pc => ∀ g, pc.uses = some g → shm'.current = some g).2 ⟨hi, ?_⟩
  intro j _ g hg
  exact hkeep j g hg (h j g hg)

theorem Held.step (h : Held s) (hs : SysV.step s (i, act) = some s') (hq : Quiet s (i, act)) : Held s' := by
  obtain ⟨shm', pc', hp, rfl⟩ := step_eq_some hs
  generalize hpc : s.pcs i = pc at hp
  cases processStep_of_stepProcess hp with
  | shmget =>
    refine h.update (fun g hg => ?_) fun j g _ hg => Named.current_openOrCreate_of_some hg
    cases hg
    exact Named.current_openOrCreate
  | failed => exact h.update (fun g hg => by cases hg) fun _ _ _ hg => hg
  | work _ _ _ huses =>
    refine h.update (fun g hg => ?_) fun _ _ _ hg => hg
    rcases huses with huses | huses
    · rw [huses] at hg
      cases hg
    · exact h i g (by rw [hpc, ← huses, hg])
  | rmid k =>
    refine h.update (fun g hg => by cases hg) fun j g hj hg => ?_
    split_ifs with hk
    · -- the step is quiet: nobody uses the segment that loses its key
      obtain rfl : g = k := Option.some.inj (hg.symm.trans hk)
      exact absurd hj (hq g hpc hk j)
    · exact hg

theorem held_inductive : ((system ι).restrict Quiet).Inductive (Held (ι := ι)) := by
  constructor
  · rintro s rfl i g hg
    cases hg
  · rintro s ⟨i, act⟩ s' h ⟨hs, hq⟩
    exact h.step hs hq

omit [DecidableEq ι] in
theorem Held.sameSegment (h : Held s) : SameSegment s := by
  intro i j g k hi hj
  have hg := h i g (by rw [hi]; rfl)
  have hk := h j k (by rw [hj]; rfl)
  exact Option.some.inj (hg.symm.trans hk)

/-! ## What is printed -/

/-- The lines of the run: each is of the segment of its process, and those of a segment are
    what its counter has handed out. -/
structure Counted (tr : List (State ι × (ι × Act))) (s : State ι) : Prop where
  ok : s.shm.Ok
  own : ∀ p ∈ events printed tr, (s.pcs p.process).segment = some p.object
  exist : ∀ i g, (s.pcs i).segment = some g → g < s.shm.objects.length
  drawn : ∀ g o, s.shm.objects[g]? = some o → Drawn (valuesOf g (events printed tr)) o.counter

/-- The segment of a process stays, and is one that exists. -/
theorem segment_of_step (h : stepProcess shm pc act = some (shm', pc')) (hok : shm.Ok) :
    shm'.Ok ∧ shm.objects.length ≤ shm'.objects.length ∧
      (pc'.segment = pc.segment ∨ pc = .start ∧ shm'.current = pc'.segment) := by
  cases processStep_of_stepProcess h with
  | shmget => exact ⟨hok.openOrCreate, Named.length_openOrCreate, Or.inr ⟨rfl, Named.current_openOrCreate⟩⟩
  | failed => exact ⟨hok, Nat.le_refl _, Or.inl rfl⟩
  | work _ hpc hpc' =>
    exact ⟨hok.modify, Nat.le_of_eq Named.length_modify.symm, Or.inl (hpc'.trans hpc.symm)⟩
  | rmid g =>
    split_ifs
    · exact ⟨Named.Ok.unlink, Nat.le_refl _, Or.inl rfl⟩
    · exact ⟨hok, Nat.le_refl _, Or.inl rfl⟩

/-- The counters after a step: `fetch_add` takes the one of its segment on, and `shmget` can
    create one. -/
theorem counter_of_step {o' : Segment} (h : stepProcess shm pc act = some (shm', pc'))
    (ho : shm'.objects[g]? = some o') :
    (∃ o, shm.objects[g]? = some o ∧
        o'.counter = if act = .count ∧ pc = .counting g then o.counter + 1 else o.counter) ∨
      g = shm.objects.length ∧ o'.counter = 0 ∧ act ≠ .count := by
  cases processStep_of_stepProcess h with
  | shmget =>
    rcases Named.getElem?_openOrCreate ho with ho | ⟨rfl, rfl⟩
    · exact Or.inl ⟨o', ho, by simp⟩
    · exact Or.inr ⟨rfl, rfl, by simp⟩
  | failed => exact Or.inl ⟨o', ho, by simp⟩
  | @work _ _ _ k f _ hpc _ _ hcounter =>
    obtain ⟨o, hold, rfl⟩ := Named.getElem?_modify ho
    refine Or.inl ⟨o, hold, ?_⟩
    split_ifs with hk hcount hcount
    · rw [hcounter, if_pos (hk ▸ hcount)]
    · rw [hcounter, if_neg (hk ▸ hcount)]
    · -- the process that counts has another segment
      rw [hcount.2] at hpc
      exact absurd (Option.some.inj hpc) hk
    · rfl
  | rmid k =>
    refine Or.inl ⟨o', ?_, by simp⟩
    split_ifs at ho
    · exact ho
    · exact ho

omit [DecidableEq ι] in
/-- The line of a step is of the segment of the process, with the value of its counter. -/
theorem printed_eq_some {p : Print ι} (h : printed s (i, act) = some p) : act = .count ∧ p.process = i ∧
    s.pcs i = .counting p.object ∧ ∃ o, s.shm.objects[p.object]? = some o ∧ p.value = o.counter.toInt := by
  cases act with
  | count =>
    simp only [printed] at h
    split at h
    next g hpc =>
      obtain ⟨o, ho, rfl⟩ := Option.map_eq_some_iff.1 h
      exact ⟨rfl, rfl, hpc, o, ho, rfl⟩
    next => cases h
  | _ => cases h

omit [DecidableEq ι] in
theorem valuesOf_append (g : ℕ) (l l' : List (Print ι)) : valuesOf g (l ++ l') = valuesOf g l ++ valuesOf g l' := by
  rw [valuesOf, List.filter_append, List.map_append]
  rfl

omit [DecidableEq ι] in
/-- What a step prints of a segment that exists. -/
theorem valuesOf_printed {o : Segment} (ho : s.shm.objects[g]? = some o) :
    valuesOf g (printed s (i, act)).toList =
      if act = .count ∧ s.pcs i = .counting g then [o.counter.toInt] else [] := by
  split_ifs with hc
  · obtain ⟨rfl, hpc⟩ := hc
    simp [printed, hpc, ho, valuesOf]
  · cases hp : printed s (i, act) with
    | none => rfl
    | some p =>
      obtain ⟨ha, -, hpc, -⟩ := printed_eq_some hp
      have hne : p.object ≠ g := fun heq => hc ⟨ha, heq ▸ hpc⟩
      simp [valuesOf, hne]

/-- A process that has a segment keeps it. -/
theorem segment_step (hs : SysV.step s (i, act) = some s') (hok : s.shm.Ok) {j : ι}
    (hg : (s.pcs j).segment = some g) : (s'.pcs j).segment = some g := by
  obtain ⟨shm', pc', hp, rfl⟩ := step_eq_some hs
  obtain ⟨-, -, hseg⟩ := segment_of_step hp hok
  by_cases hj : j = i
  · subst hj
    simp only [Function.update_self]
    rcases hseg with hseg | ⟨hst, -⟩
    · rw [hseg, hg]
    · rw [hst] at hg
      cases hg
  · simp only [Function.update_of_ne hj]
    exact hg

theorem counted {tr : List (State ι × (ι × Act))} (h : (system ι).Exec tr s) : Counted tr s := by
  induction h with
  | init hi =>
    cases hi
    refine ⟨fun g hg => ?_, fun p hp => ?_, fun i g hg => ?_, fun g o ho => ?_⟩
    · cases hg
    · cases hp
    · cases hg
    · cases ho
  | @snoc tr s a s' _ hs ih =>
    obtain ⟨i, act⟩ := a
    obtain ⟨shm', pc', hp, rfl⟩ := step_eq_some hs
    obtain ⟨hok, hlen, hseg⟩ := segment_of_step hp ih.ok
    have hev : events printed (tr ++ [(s, (i, act))]) = events printed tr ++ (printed s (i, act)).toList := by simp
    have hown : ∀ p ∈ events printed (tr ++ [(s, (i, act))]), (s.pcs p.process).segment = some p.object := by
      intro p hp
      rw [hev, List.mem_append, Option.mem_toList] at hp
      rcases hp with hp | hp
      · exact ih.own p hp
      · obtain ⟨-, rfl, hpc, -⟩ := printed_eq_some hp
        rw [hpc]
        rfl
    refine ⟨hok, fun p hp => segment_step hs ih.ok (hown p hp), ?_, fun g o' ho' => ?_⟩
    · refine (Function.forall_update_iff s.pcs fun _ pc => ∀ g, pc.segment = some g → g < shm'.objects.length).2
        ⟨fun g hg => ?_, fun j _ g hg => Nat.lt_of_lt_of_le (ih.exist j g hg) hlen⟩
      rcases hseg with hseg | ⟨-, hseg⟩
      · exact Nat.lt_of_lt_of_le (ih.exist i g (hseg ▸ hg)) hlen
      · exact hok g (hseg.trans hg)
    · rw [hev, valuesOf_append]
      rcases counter_of_step hp ho' with ⟨o, ho, hc⟩ | ⟨rfl, h0, hne⟩
      · rw [valuesOf_printed ho, hc]
        split_ifs
        · exact (ih.drawn g o ho).concat
        · rw [List.append_nil]
          exact ih.drawn g o ho
      · -- the segment is new, and nothing has been printed of it
        have hnone : printed s (i, act) = none := by
          cases hpr : printed s (i, act) with
          | none => rfl
          | some p => exact absurd (printed_eq_some hpr).1 hne
        have hnil : valuesOf s.shm.objects.length (events printed tr) = [] := by
          rw [valuesOf, List.filter_eq_nil_iff.2, List.map_nil]
          intro p hp
          have := ih.exist _ _ (ih.own p hp)
          simp only [decide_eq_true_eq]
          omega
        rw [hnone, hnil, h0]
        exact drawn_nil

/-- A process keeps its segment to the end of the run. -/
theorem segment_of_mem (h : (system ι).Exec tr s) {x : State ι × (ι × Act)} (hx : x ∈ tr)
    (hg : (x.1.pcs i).segment = some g) : (s.pcs i).segment = some g := by
  induction h with
  | init => cases hx
  | @snoc tr s a s' he hs ih =>
    refine segment_step hs (counted he).ok ?_
    rcases List.mem_append.1 hx with hx | hx
    · exact ih hx
    · obtain rfl := List.mem_singleton.1 hx
      exact hg

/-- What the counter is for. -/
structure Sound (tr : List (State ι × (ι × Act))) (s : State ι) : Prop where
  sameSegment : Always SameSegment tr s
  distinct : Distinct tr s

/-- **One counter for all**: as long as no process removes a segment that another one uses,
    and no counter comes back to its beginning, the processes that count at the same time
    have one segment, and print different values. -/
theorem sound_of_quiet (h : (system ι).Exec tr s) (hq : ∀ x ∈ tr, Quiet x.1 x.2)
    (hn : ∀ g, (valuesOf g (events printed tr)).length ≤ 2 ^ 32) : Sound tr s := by
  obtain ⟨hheld, hheld'⟩ := held_inductive.exec (exec_restrict.2 ⟨h, hq⟩)
  refine ⟨⟨fun x hx => (hheld' x hx).sameSegment, hheld.sameSegment⟩, ?_⟩
  intro i j hij htog p hp q hq hpi hqj heq
  obtain ⟨g, hi, hj⟩ : ∃ g, (s.pcs i).segment = some g ∧ (s.pcs j).segment = some g := by
    rcases htog with ⟨⟨g, hi⟩, k, hj⟩ | ⟨x, hx, ⟨g, hi⟩, k, hj⟩
    · obtain rfl := hheld.sameSegment i j g k hi hj
      exact ⟨g, by rw [hi]; rfl, by rw [hj]; rfl⟩
    · obtain rfl := (hheld' x hx).sameSegment i j g k hi hj
      exact ⟨g, segment_of_mem h hx (by rw [hi]; rfl), segment_of_mem h hx (by rw [hj]; rfl)⟩
  have hc := counted h
  have hpg : p.object = g := Option.some.inj ((hc.own p hp).symm.trans (hpi ▸ hi))
  have hqg : q.object = g := Option.some.inj ((hc.own q hq).symm.trans (hqj ▸ hj))
  obtain ⟨o, ho⟩ : ∃ o, s.shm.objects[g]? = some o := ⟨_, List.getElem?_eq_getElem (hc.exist i g hi)⟩
  have hnodup : (valuesOf g (events printed tr)).Nodup := (hc.drawn g o ho).nodup (hn g)
  have hpq := List.inj_on_of_nodup_map hnodup (List.mem_filter.2 ⟨hp, by simpa using hpg⟩)
    (List.mem_filter.2 ⟨hq, by simpa using hqg⟩) heq
  exact hij (hpi ▸ hqj ▸ congrArg Print.process hpq)

/-- Two processes count together, and the first one leaves. -/
def leave : List (ℕ × Act) :=
  [(0, .shmget), (1, .shmget), (0, .shmat), (0, .register), (0, .count), (1, .shmat), (1, .register),
    (1, .count), (0, .count), (0, .deregister), (0, .shmdt), (1, .count)]

theorem sound_of_quiet_leave : ∃ tr s, (system ℕ).Exec tr s ∧
    (events printed tr).map Print.value = [0, 1, 2, 3] ∧ Sound tr s := by
  obtain ⟨s, -, he, -⟩ := exec_of_any initial step leave (fun _ => true) (by decide +kernel)
  have hv : (events printed (traceFn step initial leave)).map Print.value = [0, 1, 2, 3] := by decide +kernel
  have hle : ∀ g, (valuesOf g (events printed (traceFn step initial leave))).length ≤ 4 := by
    intro g
    rw [valuesOf, List.length_map, show 4 = (events printed (traceFn step initial leave)).length from by decide +kernel]
    exact List.length_filter_le _ _
  have hrm : ∀ x ∈ traceFn step initial leave, x.2.2 ≠ .rmid := by decide +kernel
  refine ⟨_, s, he, hv, sound_of_quiet he ?_ fun g => Nat.le_trans (hle g) (by decide)⟩
  rintro ⟨s, i, act⟩ hx
  cases act with
  | rmid => exact absurd rfl (hrm _ hx)
  | _ => trivial

/-- Process 1 attaches the segment before the last other process removes it, and counts on
    after that; process 2 gets a new one. -/
def race : List (ℕ × Act) :=
  [(0, .shmget), (0, .shmat), (0, .register), (1, .shmget), (1, .shmat), (0, .deregister), (0, .shmdt),
    (0, .rmid), (1, .register), (2, .shmget), (2, .shmat), (2, .register), (1, .count), (2, .count)]

theorem not_sound : ∃ tr s, (system ℕ).Exec tr s ∧ ¬ SameSegment s ∧ ¬ Distinct tr s := by
  obtain ⟨s, hs, he, hp⟩ := exec_of_any initial step race
    (fun s => s.pcs 1 == .counting 0 && s.pcs 2 == .counting 1) (by decide +kernel)
  simp only [Bool.and_eq_true, beq_iff_eq] at hp
  obtain ⟨h1, h2⟩ := hp
  refine ⟨_, s, he, fun h => absurd (h 1 2 0 1 h1 h2) (by decide), fun h => ?_⟩
  exact h 1 2 (by decide) (Or.inl ⟨⟨0, h1⟩, 1, h2⟩) ⟨1, 0, 0⟩ (by decide +kernel) ⟨2, 1, 0⟩ (by decide +kernel)
    rfl rfl rfl

end SysV

end Counter
