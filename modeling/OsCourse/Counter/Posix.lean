/-
  The shared counter of dz8/counter8.c: processes that open, size and initialise a POSIX
  object, and what they print.
-/
import OsCourse.Counter.SysV

namespace Counter.Posix

open Transition System Tickets

/-- An object of `shm_open` with the `struct shared_data` that is mapped from it.  The bytes
    behind its size are 0, and `ftruncate` leaves them so when it takes them in. -/
structure Object where
  size : ℕ
  counter : BitVec 32
  processCount : BitVec 32
  deriving DecidableEq

/-- `sizeof(struct shared_data)` -/
def sizeofSharedData : ℕ := 8

/-- An object as `shm_open` creates it. -/
def Object.fresh : Object := { size := 0, counter := 0, processCount := 0 }

/-- Where `main` and `cleanup` are, with the object that `shm_fd` stands for. -/
inductive Pc where
  /-- before `shm_open` -/
  | start
  | opened (g : ℕ)
  /-- `fstat` has seen the size -/
  | seen (g : ℕ) (size : ℕ)
  /-- `ftruncate` has sized the object; before `mmap` -/
  | sized (g : ℕ)
  /-- before `atomic_store(&shared_mem->counter, 0)` -/
  | mapped (g : ℕ)
  /-- before `atomic_store(&shared_mem->process_count, 0)` -/
  | stored (g : ℕ)
  /-- before the process registers -/
  | ready (g : ℕ)
  /-- in the loop `while (keep_running)` -/
  | counting (g : ℕ)
  /-- `remaining == 0`; before `munmap` -/
  | last (g : ℕ)
  /-- before `shm_unlink(SHM_NAME)` -/
  | unlinking (g : ℕ)
  /-- `remaining` is another number; before `munmap` -/
  | leaving (g : ℕ)
  | finished (g : ℕ)
  deriving DecidableEq

inductive Act where
  | shmOpen
  | fstat
  | ftruncate
  | mmap
  | storeCounter
  | storeProcessCount
  /-- `atomic_fetch_add(&shared_mem->process_count, 1)` -/
  | register
  /-- `atomic_fetch_add(&shared_mem->counter, 1)` and the line with the old value -/
  | count
  /-- a signal has ended the loop: `atomic_fetch_sub(&shared_mem->process_count, 1)` -/
  | deregister
  | munmap
  | shmUnlink
  deriving DecidableEq

/-- What an action does to the object. -/
def Object.after (o : Object) : Act → Object
  | .ftruncate => { o with size := sizeofSharedData }
  | .storeCounter => { o with counter := 0 }
  | .storeProcessCount => { o with processCount := 0 }
  | .register => { o with processCount := o.processCount + 1 }
  | .count => { o with counter := o.counter + 1 }
  | .deregister => { o with processCount := o.processCount - 1 }
  | .shmOpen | .fstat | .mmap | .munmap | .shmUnlink => o

/-- A step of a process. -/
def stepProcess (shm : Named Object) (pc : Pc) (act : Act) : Option (Named Object × Pc) :=
  let go (g : ℕ) (pc : Pc) : Option (Named Object × Pc) := some (shm.modify g fun o => o.after act, pc)
  match pc, act with
  | .start, .shmOpen => some ((shm.openOrCreate .fresh).1, .opened (shm.openOrCreate .fresh).2)
  | .opened g, .fstat => (shm.objects[g]?).bind fun o => go g (.seen g o.size)
  | .seen g 0, .ftruncate => go g (.sized g)
  | .seen g (_ + 1), .mmap => go g (.ready g)
  | .sized g, .mmap => go g (.mapped g)
  | .mapped g, .storeCounter => go g (.stored g)
  | .stored g, .storeProcessCount => go g (.ready g)
  | .ready g, .register => go g (.counting g)
  | .counting g, .count => go g (.counting g)
  | .counting g, .deregister =>
    (shm.objects[g]?).bind fun o => go g (if o.processCount - 1 = 0 then .last g else .leaving g)
  | .last g, .munmap => go g (.unlinking g)
  | .leaving g, .munmap => go g (.finished g)
  | .unlinking g, .shmUnlink => some (shm.unlink, .finished g)
  | _, _ => none

structure State (ι : Type) where
  shm : Named Object
  pcs : ι → Pc

variable {ι : Type}

/-- There is no object of the name. -/
def initial : State ι := { shm := .empty, pcs := fun _ => .start }

section
variable [DecidableEq ι]

def step (s : State ι) (a : ι × Act) : Option (State ι) :=
  (stepProcess s.shm (s.pcs a.1) a.2).map fun x => { shm := x.1, pcs := Function.update s.pcs a.1 x.2 }

end

/-- Any processes, in any order of their steps. -/
def system (ι : Type) [DecidableEq ι] : System (State ι) (ι × Act) := ofFn initial step

/-- The line that is printed in this step. -/
def printed (s : State ι) : ι × Act → Option (Print ι)
  | (i, .count) =>
    match s.pcs i with
    | .counting g => (s.shm.objects[g]?).map fun o => { process := i, object := g, value := o.counter.toInt }
    | _ => none
  | _ => none

/-- The process that registers in this step. -/
def registered (_ : State ι) : ι × Act → Option ι
  | (i, .register) => some i
  | _ => none

/-- No process has come to its `cleanup`. -/
def Starting (tr : List (State ι × (ι × Act))) : Prop := ∀ x ∈ tr, x.2.2 ≠ .deregister

/-- What the counter is for: `process_count` is the number of the processes that have
    registered, and no value is printed twice. -/
structure Sound (tr : List (State ι × (ι × Act))) (s : State ι) : Prop where
  processCount : ∀ g o, s.shm.current = some g → s.shm.objects[g]? = some o →
    o.processCount.toInt = (events registered tr).length
  distinct : ((events printed tr).map Print.value).Nodup

/-- The step does not store 0 over another value. -/
def Quiet (s : State ι) : ι × Act → Prop
  | (i, .storeCounter) => ∀ g o, s.pcs i = .mapped g → s.shm.objects[g]? = some o → o.counter = 0
  | (i, .storeProcessCount) => ∀ g o, s.pcs i = .stored g → s.shm.objects[g]? = some o → o.processCount = 0
  | _ => True

variable {shm shm' : Named Object} {pc pc' : Pc} {act : Act} {o : Object} {s s' : State ι} {i : ι}
  {tr : List (State ι × (ι × Act))}

/-! ## The starts -/

/-- Before `cleanup`, with the object 0. -/
def Pc.Early : Pc → Prop
  | .start => True
  | .opened g | .seen g _ | .sized g | .mapped g | .stored g | .ready g | .counting g => g = 0
  | .last _ | .unlinking _ | .leaving _ | .finished _ => False

/-- The first `shm_open` creates the object. -/
theorem stepProcess_empty (hs : stepProcess .empty .start act = some (shm', pc')) :
    act = .shmOpen ∧ shm' = .single .fresh ∧ pc' = .opened 0 := by
  unfold stepProcess at hs
  cases act with
  | shmOpen =>
    simp only [Named.openOrCreate_empty, Option.some.injEq, Prod.mk.injEq] at hs
    obtain ⟨rfl, rfl⟩ := hs
    exact ⟨rfl, rfl, rfl⟩
  | _ => cases hs

/-- All later steps work on it. -/
theorem stepProcess_single (hpc : pc.Early) (hact : act ≠ .deregister)
    (hs : stepProcess (.single o) pc act = some (shm', pc')) : shm' = .single (o.after act) ∧ pc'.Early := by
  unfold stepProcess at hs
  split at hs
  -- `shm_open`
  case h_1 =>
    simp only [Named.openOrCreate_single, Option.some.injEq, Prod.mk.injEq] at hs
    obtain ⟨rfl, rfl⟩ := hs
    exact ⟨rfl, rfl⟩
  -- `fstat`
  case h_2 =>
    obtain ⟨o', -, ho'⟩ := Option.bind_eq_some_iff.1 hs
    obtain rfl := hpc
    simp only [Named.modify_single, Option.some.injEq, Prod.mk.injEq] at ho'
    obtain ⟨rfl, rfl⟩ := ho'
    exact ⟨rfl, rfl⟩
  case h_10 => exact absurd rfl hact
  -- no step
  case h_14 => cases hs
  -- behind `cleanup`
  case h_11 | h_12 | h_13 => exact hpc.elim
  -- the steps on the object
  all_goals
    obtain rfl := hpc
    simp only [Named.modify_single, Option.some.injEq, Prod.mk.injEq] at hs
    obtain ⟨rfl, rfl⟩ := hs
    exact ⟨rfl, rfl⟩

/-- Where a process is when it prints or stores. -/
theorem pc_of_step (hs : stepProcess shm pc act = some (shm', pc')) :
    (act = .count → ∃ g, pc = .counting g) ∧ (act = .storeCounter → ∃ g, pc = .mapped g) ∧
      (act = .storeProcessCount → ∃ g, pc = .stored g) := by
  unfold stepProcess at hs
  split at hs
  case h_14 => cases hs
  all_goals simp

/-- What the object has come to in a run of starts: its counters tell what has been printed,
    and how many have registered. -/
def Counted (tr : List (State ι × (ι × Act))) (s : State ι) (o : Object) : Prop :=
  s.shm = .single o ∧ (∀ i, (s.pcs i).Early) ∧ Drawn ((events printed tr).map Print.value) o.counter ∧
    o.processCount = BitVec.ofNat 32 (events registered tr).length

/-- What a step prints. -/
theorem values_printed (hshm : s.shm = .single o) (hi : (s.pcs i).Early)
    (hs : stepProcess (.single o) (s.pcs i) act = some (shm', pc')) :
    (printed s (i, act)).toList.map Print.value = if act = .count then [o.counter.toInt] else [] := by
  by_cases ha : act = .count
  · obtain ⟨g, hpc⟩ := (pc_of_step hs).1 ha
    rw [hpc] at hi
    obtain rfl := hi
    simp [printed, hpc, hshm, ha, Named.single]
  · rw [if_neg ha]
    cases act with
    | count => exact absurd rfl ha
    | _ => rfl

/-- The next value is handed out by `fetch_add` alone, if the stores of 0 change nothing. -/
theorem drawn_after {vals : List ℤ} (h : Drawn vals o.counter) (hq : act = .storeCounter → o.counter = 0) :
    Drawn (vals ++ if act = .count then [o.counter.toInt] else []) (o.after act).counter := by
  cases act with
  | count => exact h.concat
  | storeCounter =>
    show Drawn (vals ++ []) 0
    rwa [List.append_nil, ← hq rfl]
  | _ =>
    show Drawn (vals ++ []) o.counter
    rwa [List.append_nil]

/-- The processes that register are counted, if the stores of 0 change nothing. -/
theorem processCount_after {n : ℕ} (h : o.processCount = BitVec.ofNat 32 n) (hact : act ≠ .deregister)
    (hq : act = .storeProcessCount → o.processCount = 0) :
    (o.after act).processCount = BitVec.ofNat 32 (n + (registered s (i, act)).toList.length) := by
  cases act with
  | register =>
    show o.processCount + 1 = BitVec.ofNat 32 (n + 1)
    rw [h, ofNat_succ]
  | storeProcessCount =>
    show 0 = BitVec.ofNat 32 n
    rw [← h, hq rfl]
  | deregister => exact absurd rfl hact
  | _ => exact h

/-- A store of 0 finds a 0. -/
theorem Counted.unchanged (h : Counted tr s o) (hs : stepProcess (.single o) (s.pcs i) act = some (shm', pc'))
    (hq : Quiet s (i, act)) :
    (act = .storeCounter → o.counter = 0) ∧ (act = .storeProcessCount → o.processCount = 0) := by
  obtain ⟨hshm, hearly, -, -⟩ := h
  have ho : s.shm.objects[0]? = some o := by rw [hshm]; rfl
  have hi := hearly i
  constructor
  · rintro rfl
    obtain ⟨g, hpc⟩ := (pc_of_step hs).2.1 rfl
    rw [hpc] at hi
    obtain rfl := hi
    exact hq 0 o hpc ho
  · rintro rfl
    obtain ⟨g, hpc⟩ := (pc_of_step hs).2.2 rfl
    rw [hpc] at hi
    obtain rfl := hi
    exact hq 0 o hpc ho

section
variable [DecidableEq ι]

theorem step_eq_some (h : step s (i, act) = some s') : ∃ shm' pc',
    stepProcess s.shm (s.pcs i) act = some (shm', pc') ∧
      s' = { shm := shm', pcs := Function.update s.pcs i pc' } := by
  obtain ⟨⟨shm', pc'⟩, hs, rfl⟩ := Option.map_eq_some_iff.1 h
  exact ⟨shm', pc', hs, rfl⟩

theorem Counted.step (h : Counted tr s o) (hs : step s (i, act) = some s') (hact : act ≠ .deregister)
    (hq : Quiet s (i, act)) : Counted (tr ++ [(s, (i, act))]) s' (o.after act) := by
  obtain ⟨shm', pc', hp, rfl⟩ := step_eq_some hs
  rw [h.1] at hp
  obtain ⟨hcounter, hcount⟩ := h.unchanged hp hq
  obtain ⟨hshm, hearly, hdrawn, hn⟩ := h
  obtain ⟨rfl, hpc'⟩ := stepProcess_single (hearly i) hact hp
  refine ⟨rfl, ?_, ?_, ?_⟩
  · exact (Function.forall_update_iff s.pcs fun _ pc => pc.Early).2 ⟨hpc', fun j _ => hearly j⟩
  · rw [events_append, events_cons, events_nil, List.append_nil, List.map_append,
      values_printed hshm (hearly i) hp]
    exact drawn_after hdrawn hcounter
  · rw [events_append, events_cons, events_nil, List.append_nil, List.length_append]
    exact processCount_after hn hact hcount

theorem counted (h : (system ι).Exec tr s) (hst : Starting tr) (hq : ∀ x ∈ tr, Quiet x.1 x.2) :
    (tr = [] ∧ s = initial) ∨ ∃ o, Counted tr s o := by
  induction h with
  | init hi => exact Or.inl ⟨rfl, hi⟩
  | @snoc tr s a s' he hs ih =>
    obtain ⟨i, act⟩ := a
    refine Or.inr ?_
    rcases ih (fun x hx => hst x (by simp [hx])) fun x hx => hq x (by simp [hx]) with ⟨rfl, rfl⟩ | ⟨o, ho⟩
    · obtain ⟨shm', pc', hp, rfl⟩ := step_eq_some hs
      obtain ⟨rfl, rfl, rfl⟩ := stepProcess_empty hp
      refine ⟨.fresh, rfl, ?_, drawn_nil, rfl⟩
      exact (Function.forall_update_iff initial.pcs fun _ pc => pc.Early).2 ⟨rfl, fun _ _ => trivial⟩
    · exact ⟨_, ho.step hs (hst (s, (i, act)) (by simp)) (hq (s, (i, act)) (by simp))⟩

/-- **All starts are counted, and no value comes twice**, when no store of 0 overwrites what
    others have counted. -/
theorem registers_of_quiet (h : (system ι).Exec tr s) (hst : Starting tr) (hq : ∀ x ∈ tr, Quiet x.1 x.2)
    (hregs : 2 * (events registered tr).length < 2 ^ 32) (hprints : (events printed tr).length ≤ 2 ^ 32) :
    Sound tr s := by
  rcases counted h hst hq with ⟨rfl, rfl⟩ | ⟨o, hshm, -, hdrawn, hcount⟩
  · exact ⟨fun g o hg => (by cases hg), List.nodup_nil⟩
  · constructor
    · intro g o' hg ho'
      rw [hshm] at hg ho'
      obtain rfl := Option.some.inj hg
      obtain rfl := Option.some.inj ho'
      rw [hcount, toInt_ofNat hregs]
    · exact hdrawn.nodup (by rwa [List.length_map])

end

/-- Process 0 is ready before process 1 sees the size. -/
def inOrder : List (ℕ × Act) :=
  [(0, .shmOpen), (0, .fstat), (0, .ftruncate), (0, .mmap), (0, .storeCounter), (0, .storeProcessCount),
    (1, .shmOpen), (1, .fstat), (1, .mmap), (0, .register), (0, .count), (1, .register), (1, .count), (0, .count)]

theorem registers_inOrder : ∃ tr s, (system ℕ).Exec tr s ∧ (events registered tr).length = 2 ∧
    (events printed tr).map Print.value = [0, 1, 2] ∧ Sound tr s := by
  obtain ⟨s, hs, he, -⟩ := exec_of_any initial step inOrder (fun _ => true) (by decide +kernel)
  have hstores : ∀ x ∈ traceFn step initial inOrder, x.2.2 = .storeCounter ∨ x.2.2 = .storeProcessCount →
      x.1.shm.objects = [⟨8, 0, 0⟩] := by decide +kernel
  have hregs : (events registered (traceFn step initial inOrder)).length = 2 := by decide +kernel
  have hv : (events printed (traceFn step initial inOrder)).map Print.value = [0, 1, 2] := by decide +kernel
  have hprints : (events printed (traceFn step initial inOrder)).length = 3 := by
    rw [← List.length_map, hv]
    rfl
  refine ⟨_, s, he, hregs, hv, registers_of_quiet he (by unfold Starting; decide +kernel) ?_ ?_ ?_⟩
  · rintro ⟨s, i, act⟩ hx
    cases act with
    | storeCounter =>
      intro g o _ ho
      rw [hstores _ hx (Or.inl rfl)] at ho
      rw [List.mem_singleton.1 (List.mem_of_getElem? ho)]
    | storeProcessCount =>
      intro g o _ ho
      rw [hstores _ hx (Or.inr rfl)] at ho
      rw [List.mem_singleton.1 (List.mem_of_getElem? ho)]
    | _ => trivial
  · rw [hregs]
    decide
  · rw [hprints]
    decide

/-- Both see the size 0, and process 1 initialises the object when process 0 is counting. -/
def race : List (ℕ × Act) :=
  [(0, .shmOpen), (0, .fstat), (1, .shmOpen), (1, .fstat), (0, .ftruncate), (0, .mmap), (0, .storeCounter),
    (0, .storeProcessCount), (0, .register), (0, .count), (1, .ftruncate), (1, .mmap), (1, .storeCounter),
    (1, .storeProcessCount), (1, .register), (1, .count)]

theorem not_registers : ∃ tr s, (system ℕ).Exec tr s ∧ Starting tr ∧ s.shm.objects[0]? = some ⟨8, 1, 1⟩ ∧
    (events registered tr).length = 2 ∧ (events printed tr).map Print.value = [0, 0] ∧ ¬ Sound tr s := by
  obtain ⟨s, hs, he, hp⟩ := exec_of_any initial step race (fun s => s.shm.objects[0]? == some ⟨8, 1, 1⟩)
    (by decide +kernel)
  have hv : (events printed (traceFn step initial race)).map Print.value = [0, 0] := by decide +kernel
  refine ⟨_, s, he, by unfold Starting; decide +kernel, by simpa using hp, by decide +kernel, hv, fun h => ?_⟩
  have := h.distinct
  rw [hv] at this
  exact absurd this (by decide)

end Counter.Posix
