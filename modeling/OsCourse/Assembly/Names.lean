/-
  The letter counter (IDZ3): for which names the program comes to its answer.  A name that does
  not open leaves a frame on the stack.
-/
import Mathlib.Data.List.TakeWhile
import OsCourse.Assembly.Heap
import OsCourse.Assembly.Labels

namespace Letters

open Riscv While

/-! ## What is typed -/

/-- A line that `str_get` can hold. -/
structure Name where
  bytes : List Byte
  noNewline : 10 ∉ bytes
  noNul : 0 ∉ bytes
  length_lt : bytes.length + 1 < nameSize

def Name.line (n : Name) : List Byte := n.bytes ++ [10]

/-- The end of a dialogue: the answer goes to the console, or to a file. -/
inductive Ending
  | console
  | file (out : Name)

/-- `Y`, or `N` with the name of the file. -/
def Ending.typed : Ending → List Byte
  | .console => [89]
  | .file out => 78 :: out.line

def Ending.Possible (Q : Setting) : Ending → Prop
  | .console => True
  | .file out => Q.writable out.bytes = true

/-- The names of the files that are written. -/
def Ending.outs : Ending → List (List Byte)
  | .console => []
  | .file out => [out.bytes]

/-- The answer without its NUL. -/
def report (v c : ℕ) : List Byte := vow ++ fourDigits v ++ cons ++ fourDigits c

/-- What is printed at the end, when the file has been read. -/
def Ending.printed (file : List Byte) : Ending → List Byte
  | .console => report (numVowels (text file)) (numConsonants (text file))
  | .file _ => writePrompt

/-- The files at the end. -/
def Ending.disk (file : List Byte) (disk : List Byte → Option (List Byte)) : Ending → List Byte → Option (List Byte)
  | .console => disk
  | .file out => Function.update disk out.bytes (some (answer (numVowels (text file)) (numConsonants (text file))))

/-- What has been written stays open. -/
def Ending.files (file : List Byte) (f : Files) (e : Ending) : Files where
  contents := e.disk file f.contents
  opened := e.outs ++ f.opened

variable {Q : Setting} {s : State} {p : Label} {n : Name} {rest file : List Byte} {w v : Word} {ws : List Word}
  {k : ℕ}

/-! ## Jumps -/

theorem State.jump_of_eq (h : s.ra = Q.addr p) : s.jump Q = { s with pc := .at p } := by
  have hfind : Label.all.find? (fun q => decide (Q.addr q = s.ra)) = some p := by
    have hsome : (Label.all.find? fun q => decide (Q.addr q = s.ra)).isSome = true :=
      List.find?_isSome.2 ⟨p, p.mem_all, decide_eq_true h.symm⟩
    obtain ⟨q, hq⟩ := Option.isSome_iff_exists.1 hsome
    have hsame : decide (Q.addr q = s.ra) = true := List.find?_some (p := fun q => decide (Q.addr q = s.ra)) hq
    rw [hq, Q.addr_inj ((of_decide_eq_true hsame).trans h)]
  rw [jump, hfind]
  rfl

theorem State.jump_of_lt (h : s.ra.toNat < 0x00400000) : s.jump Q = { s with pc := .lost s.ra } := by
  have hfind : Label.all.find? (fun q => decide (Q.addr q = s.ra)) = none := by
    refine List.find?_eq_none.2 fun q _ hq => ?_
    have hle := Q.text_le q
    rw [of_decide_eq_true hq] at hle
    omega
  rw [jump, hfind]
  rfl

/-! ## The console -/

theorem strGet_line (h : s.console = n.line ++ rest) :
    strGet s = .inl { s with fileName := n.bytes, console := rest } := by
  have hline : s.console.takeWhile (· ≠ 10) = n.bytes := by
    rw [h, Name.line, List.append_assoc]
    refine List.takeWhile_append_of_pos ?_ |>.trans ?_
    · intro x hx
      exact decide_eq_true fun heq => n.noNewline (heq ▸ hx)
    · simp
  have hname : n.bytes.takeWhile (· ≠ 0) = n.bytes :=
    List.takeWhile_eq_self_iff.2 fun x hx => decide_eq_true fun heq => n.noNul (heq ▸ hx)
  have hlen : s.console.length = n.bytes.length + 1 + rest.length := by
    rw [h, Name.line, List.length_append, List.length_append, List.length_singleton]
  have hdrop : s.console.drop (n.bytes.length + 1) = rest := by
    rw [h]
    exact List.drop_left' (by rw [Name.line, List.length_append, List.length_singleton])
  rw [strGet, hline, if_neg (by omega), if_neg (Nat.not_le.2 n.length_lt), hname, hdrop]

theorem andThen_strGet (h : s.console = n.line ++ rest) (f : State → State ⊕ (Stop × State)) :
    andThen (strGet s) f = f { s with fileName := n.bytes, console := rest } := by
  rw [strGet_line h]
  rfl

/-- A name for reading has been typed. -/
def State.named (s : State) (n : Name) (rest : List Byte) : State :=
  { s with fileName := n.bytes, console := rest, printed := s.printed ++ [readPrompt] }

/-- The address to go back to has been taken from the stack. -/
def State.popped (s : State) (w : Word) (ws : List Word) : State := { s with ra := w, stack := ws }

/-- A file has been read. -/
def State.got (s : State) (a : Word) (file : List Byte) (m : Machine) : State :=
  { s with a0 := a, a1 := BitVec.ofNat 32 (text file).length, machine := m }

/-- The text of a file is where `a0` and `a1` say. -/
def State.Holds (s : State) (file : List Byte) : Prop :=
  HoldsText s.machine.mem s.a0 (text file) ∧ s.a1 = BitVec.ofNat 32 (text file).length

/-! ## The table of names -/

section Table
variable {f f' f'' : Files} {room : ℕ} {name : List Byte} {names names' : List (List Byte)}

/-- From the one state of the files to the other, only these names have been used. -/
structure Files.Uses (f f' : Files) (names : List (List Byte)) : Prop where
  contents : ∀ name ∉ names, f'.contents name = f.contents name
  opened : ∀ name ∈ f'.opened, name ∈ f.opened ∨ name ∈ names
  length_le : f'.opened.length ≤ f.opened.length + names.length

/-- They have not opened. -/
structure Files.Kept (f f' : Files) (names : List (List Byte)) : Prop extends f.Uses f' names where
  same : f'.contents = f.contents

theorem Files.kept_keep (f : Files) (room : ℕ) (name : List Byte) : f.Kept (f.keep room name) [name] := by
  unfold Files.keep
  split_ifs
  · refine ⟨⟨fun _ _ => rfl, fun x hx => ?_, Nat.le_refl _⟩, rfl⟩
    rcases List.mem_cons.1 hx with rfl | hx
    · exact Or.inr List.mem_cons_self
    · exact Or.inl hx
  · exact ⟨⟨fun _ _ => rfl, fun x hx => Or.inl hx, Nat.le_add_right _ _⟩, rfl⟩

theorem Files.kept_refl (f : Files) : f.Kept f [] := ⟨⟨fun _ _ => rfl, fun _ => Or.inl, Nat.le_refl _⟩, rfl⟩

theorem Files.Uses.trans (h : f.Uses f' names) (h' : f'.Uses f'' names') : f.Uses f'' (names ++ names') := by
  refine ⟨fun x hx => ?_, fun x hx => ?_, ?_⟩
  · obtain ⟨hx₁, hx₂⟩ := not_or.1 (mt List.mem_append.2 hx)
    exact (h'.contents x hx₂).trans (h.contents x hx₁)
  · rw [List.mem_append]
    rcases h'.opened x hx with hx | hx
    · exact (h.opened x hx).imp_right Or.inl
    · exact Or.inr (Or.inr hx)
  · have := h.length_le
    have := h'.length_le
    rw [List.length_append]
    omega

theorem Files.Kept.trans (h : f.Kept f' names) (h' : f'.Kept f'' names') : f.Kept f'' (names ++ names') :=
  ⟨h.toUses.trans h'.toUses, h'.same.trans h.same⟩

/-- A name that has not been used is taken. -/
theorem Files.Uses.takes (h : f.Uses f' names) (hopened : name ∉ f.opened) (hnames : name ∉ names)
    (hroom : f.opened.length + names.length < room) : f'.Takes room name :=
  ⟨fun hmem => (h.opened name hmem).elim hopened hnames, Nat.lt_of_le_of_lt h.length_le hroom⟩

/-- It leads to the same file. -/
theorem Files.Uses.toRead (h : f.Uses f' names) (hopened : name ∉ f.opened) (hnames : name ∉ names)
    (hroom : f.opened.length + names.length < room) : f'.toRead room name = f.contents name :=
  (if_pos (h.takes hopened hnames hroom)).trans (h.contents name hnames)

/-- There is room for two names before the next one. -/
theorem Setting.lt_maxFiles (Q : Setting) (disk : List Byte → Option (List Byte)) (h : names.length ≤ 2) :
    (Files.mk disk []).opened.length + names.length < Q.maxFiles := by
  have hmax := Q.maxFiles_ge
  rw [List.length_nil]
  omega

theorem Files.toRead_of_none (h : f.contents name = none) : f.toRead room name = none := by
  unfold Files.toRead
  split_ifs
  · exact h
  · rfl

/-- A name that opens is none of those that do not. -/
theorem name_notMem {bad : List Name} {n : Name} {file : List Byte} (hbad : ∀ n ∈ bad, f.contents n.bytes = none)
    (hgood : f.contents n.bytes = some file) : n.bytes ∉ bad.map Name.bytes := by
  intro hmem
  obtain ⟨n', hn', heq⟩ := List.mem_map.1 hmem
  have hnone := hbad n' hn'
  rw [heq, hgood] at hnone
  cases hnone

end Table

theorem leads_inputName (hpc : s.pc = .at .inputName) (h : s.console = n.line ++ rest) :
    Leads (block Q) s (if s.a3 = 0 then { s.named n rest with pc := .at .readNameEpilog }
      else (s.named n rest).call Q .readStringFromFile .readNameEpilog) := by
  refine .of_inl ?_
  rw [block, hpc]
  dsimp only
  refine (andThen_strGet (s := s.print readPrompt) h _).trans ?_
  show (if s.a3 = 0 then _ else _) = _
  split_ifs <;> rfl

/-! ## Reading a file -/

theorem leads_wrong (hpc : s.pc = .at .readStringFromFile) (h : s.files.toRead Q.maxFiles s.fileName = none) :
    Leads (block Q) s { s.prolog.erName with files := s.files.keep Q.maxFiles s.fileName } := by
  refine .of_inl ?_
  rw [block, hpc]
  dsimp only
  rw [h]

theorem leads_read (hpc : s.pc = .at .readStringFromFile) (h : s.files.toRead Q.maxFiles s.fileName = some file)
    (hm : Ready Q.layout (k + 1) s.machine) : ∃ a m, Ready Q.layout k m ∧ HoldsText m.mem a (text file) ∧
      Leads (block Q) s ((s.got a file m).jump Q) := by
  obtain ⟨m, hread, hm', htext⟩ := hm.read (Nat.le_trans (by decide) Q.fuel_le) file
  refine ⟨_, m, hm', htext, .of_inl ?_⟩
  rw [block, hpc]
  dsimp only
  rw [h]
  dsimp only
  rw [hread, State.got, hpc]

/-- The end of `read_name_of_file`, which goes on with `read_string_from_file`: the word on the
    top of the stack is the address to go back to. -/
theorem leads_readNameEpilog (hpc : s.pc = .at .readNameEpilog) (hstack : s.stack = w :: ws) :
    Leads (block Q) s { s.popped w ws with pc := .at .readStringFromFile } := by
  refine .of_inl ?_
  rw [block, hpc]
  dsimp only
  rw [State.load, hstack]
  rfl

theorem leads_again (hpc : s.pc = .at .readNameEpilog) (hstack : s.stack = w :: ws)
    (h : s.files.toRead Q.maxFiles s.fileName = some file) (hm : Ready Q.layout (k + 1) s.machine) :
    ∃ a m, Ready Q.layout k m ∧ HoldsText m.mem a (text file) ∧
      Leads (block Q) s ((({ s with pc := .at .readStringFromFile }).popped w ws).got a file m |>.jump Q) := by
  obtain ⟨a, m, hm', htext, hread⟩ := leads_read (Q := Q) (k := k)
    (s := ({ s with pc := .at .readStringFromFile }).popped w ws) rfl h hm
  exact ⟨a, m, hm', htext, (leads_readNameEpilog hpc hstack).trans hread⟩

/-! ## Names that do not open -/

/-- Another name is asked for, after these names for nothing. -/
structure Asks (s : State) (rest : List Byte) (bad : List Name) (s' : State) : Prop where
  pc : s'.pc = .at .inputName
  a3 : s'.a3 ≠ 0
  s6 : s'.saved.s6 = s.saved.s6
  console : s'.console = rest
  printed : s'.printed = s.printed ++ List.replicate bad.length readPrompt
  files : s.files.Kept s'.files (bad.map Name.bytes)
  machine : s'.machine = s.machine

/-- A name that does not open leaves its frame on the stack. -/
theorem leads_bad (hpc : s.pc = .at .inputName) (h3 : s.a3 ≠ 0) (h : s.console = n.line ++ rest)
    (hbad : s.files.contents n.bytes = none) : ∃ s', Leads (block Q) s s' ∧ Asks s rest [n] s' ∧
      ∃ ws, s'.stack = Q.addr .readNameEpilog :: s.saved.s6 :: ws := by
  have hinput := leads_inputName (Q := Q) hpc h
  rw [if_neg h3] at hinput
  exact ⟨_, hinput.trans (leads_wrong rfl (Files.toRead_of_none hbad)),
    ⟨rfl, (by decide : (1 : Word) ≠ 0), rfl, rfl, rfl, s.files.kept_keep _ _, rfl⟩, _, rfl⟩

/-- After some of them there is the place behind the call on the stack, and under it what `s6`
    has been. -/
theorem leads_bads {bad : List Name} (hpc : s.pc = .at .inputName) (h3 : s.a3 ≠ 0)
    (h : s.console = bad.flatMap Name.line ++ rest) (hne : bad ≠ [])
    (hbad : ∀ n ∈ bad, s.files.contents n.bytes = none) :
    ∃ s', Leads (block Q) s s' ∧ Asks s rest bad s' ∧ ∃ ws, s'.stack = Q.addr .readNameEpilog :: s.saved.s6 :: ws := by
  induction bad generalizing s with
  | nil => exact absurd rfl hne
  | cons n bad ih =>
    rw [List.flatMap_cons, List.append_assoc] at h
    obtain ⟨s₁, hleads, hasks, hstack⟩ := leads_bad (Q := Q) hpc h3 h (hbad n List.mem_cons_self)
    rcases eq_or_ne bad [] with rfl | hne'
    · exact ⟨s₁, hleads, hasks, hstack⟩
    · obtain ⟨s₂, hleads₂, hasks₂, hstack₂⟩ := ih hasks.pc hasks.a3 hasks.console hne' fun n hn => by
        rw [hasks.files.same]
        exact hbad n (List.mem_cons_of_mem _ hn)
      rw [hasks.s6] at hstack₂
      refine ⟨s₂, hleads.trans hleads₂, ⟨hasks₂.pc, hasks₂.a3, hasks₂.s6.trans hasks.s6, hasks₂.console, ?_,
        hasks.files.trans hasks₂.files, hasks₂.machine.trans hasks.machine⟩, hstack₂⟩
      rw [hasks₂.printed, hasks.printed, List.append_assoc, List.length_cons, Nat.add_comm, List.replicate_add]
      rfl

/-- A name that opens after that: the file is read twice, and the word on the top of the stack
    is taken for the address to go back to. -/
theorem leads_good (hpc : s.pc = .at .inputName) (h3 : s.a3 ≠ 0) (h : s.console = n.line ++ rest)
    (hgood : s.files.toRead Q.maxFiles n.bytes = some file) (hstack : s.stack = w :: ws)
    (hm : Ready Q.layout (k + 2) s.machine) :
    ∃ a m, Ready Q.layout k m ∧ HoldsText m.mem a (text file) ∧ Leads (block Q) s
      ((({ s.named n rest with pc := .at .readStringFromFile }).popped w ws).got a file m |>.jump Q) := by
  have hinput := leads_inputName (Q := Q) hpc h
  rw [if_neg h3] at hinput
  obtain ⟨a, m, hm', -, hread⟩ := leads_read (Q := Q) (k := k + 1)
    (s := (s.named n rest).call Q .readStringFromFile .readNameEpilog) rfl hgood hm
  rw [State.jump_of_eq rfl] at hread
  obtain ⟨a', m', hm'', htext, hagain⟩ := leads_again (Q := Q) (k := k) (s := { ((s.named n rest).call Q
    .readStringFromFile .readNameEpilog).got a file m with pc := .at .readNameEpilog }) rfl hstack hgood hm'
  exact ⟨a', m', hm'', htext, (hinput.trans hread).trans hagain⟩

/-- After two names for nothing the program is lost, at the address that `s6` holds. -/
theorem leads_lost {bad : List Name} (hpc : s.pc = .at .inputName) (h3 : s.a3 ≠ 0)
    (h : s.console = bad.flatMap Name.line ++ (n.line ++ rest)) (hne : bad ≠ [])
    (hbad : ∀ n ∈ bad, s.files.contents n.bytes = none) (hgood : s.files.contents n.bytes = some file)
    (hnew : n.bytes ∉ s.files.opened) (hroom : s.files.opened.length + bad.length < Q.maxFiles)
    (hs6 : s.saved.s6.toNat < 0x00400000) (hm : Ready Q.layout (k + 3) s.machine) :
    ∃ s', Leads (block Q) s s' ∧ s'.pc = .lost s.saved.s6 ∧ s'.Holds file ∧
      s'.printed = s.printed ++ List.replicate (bad.length + 1) readPrompt ∧
      s'.files.contents = s.files.contents := by
  obtain ⟨s₁, hleads, hasks, ws, hstack⟩ := leads_bads (Q := Q) hpc h3 h hne hbad
  have hfiles := hasks.files
  have hnames := name_notMem hbad hgood
  have hopen : s₁.files.toRead Q.maxFiles n.bytes = some file :=
    (hfiles.toRead hnew hnames (by rwa [List.length_map])).trans hgood
  obtain ⟨a, m, hm', -, hleads'⟩ := leads_good (k := k + 1) hasks.pc hasks.a3 hasks.console hopen hstack
    (by rw [hasks.machine]; exact hm)
  rw [State.jump_of_eq rfl] at hleads'
  obtain ⟨a', m', -, htext, hagain⟩ := leads_again (Q := Q) (k := k) (s := { (({ s₁.named n rest with
    pc := .at .readStringFromFile }).popped (Q.addr .readNameEpilog) (s.saved.s6 :: ws)).got a file m with
      pc := .at .readNameEpilog }) rfl rfl hopen hm'
  rw [State.jump_of_lt hs6] at hagain
  refine ⟨_, (hleads.trans hleads').trans hagain, rfl, ⟨htext, rfl⟩, ?_, hfiles.same⟩
  show s₁.printed ++ [readPrompt] = _
  rw [hasks.printed, List.append_assoc, List.replicate_succ']

/-! ## The answer -/

/-- The program asks where the answer is to go. -/
structure Offers (Q : Setting) (k : ℕ) (file : List Byte) (s s' : State) : Prop where
  pc : s'.pc = .at .ynloop
  stack : s'.stack = Q.addr .programEpilog :: s.saved.s1 :: s.saved.s0 :: s.ra :: s.stack
  s1 : s'.saved.s1 = 50
  s6 : s'.saved.s6 = s.saved.s6
  spells : Spells s'.machine.mem s'.saved.s0 (answer (numVowels (text file)) (numConsonants (text file)))
  ready : Ready Q.layout k s'.machine
  console : s'.console = s.console
  printed : s'.printed = s.printed ++ [outToConsole]
  files : s'.files = s.files

/-- `program` up to the question. -/
theorem leads_program (hpc : s.pc = .at .program) (h : s.files.toRead Q.maxFiles s.fileName = some file)
    (hm : Ready Q.layout (k + 2) s.machine) : ∃ s', Leads (block Q) s s' ∧ Offers Q k file s s' := by
  have hcall : Leads (block Q) s ({ s with stack := s.ra :: s.stack }.call Q .readStringFromFile .programCount) := by
    refine .of_inl ?_
    rw [block, hpc]
  obtain ⟨a, m, hm', htext, hread⟩ := leads_read (Q := Q) (k := k + 1)
    (s := { s with stack := s.ra :: s.stack }.call Q .readStringFromFile .programCount) rfl h hm
  rw [State.jump_of_eq rfl] at hread
  obtain ⟨v, c, m', hcount, hcreate, hm'', hanswer⟩ := hm'.answer htext Q.fuel_le
  have hbuild : Leads (block Q) s ({ s with
      stack := s.ra :: s.stack
      a0 := m.brk
      a1 := 50
      machine := m' }.call Q .output .programEpilog) := by
    refine (hcall.trans hread).step ?_
    rw [block]
    simp only [State.got, hcount, hcreate]
    rfl
  exact ⟨_, hbuild.step rfl, ⟨rfl, rfl, rfl, rfl, hanswer, hm'', rfl, rfl, rfl⟩⟩

theorem setWidth_eq_iff {c : Byte} {x : ℕ} (hx : x < 256) :
    c.setWidth 32 = BitVec.ofNat 32 x ↔ c = BitVec.ofNat 8 x := by
  rw [← BitVec.toNat_inj, ← BitVec.toNat_inj]
  simp only [BitVec.toNat_setWidth, BitVec.toNat_ofNat]
  have := c.isLt
  omega

/-- Anything else but `Y` and `N` is passed over. -/
theorem leads_junk {junk : List Byte} (hpc : s.pc = .at .ynloop) (h : s.console = junk ++ rest)
    (hjunk : ∀ c ∈ junk, c ≠ 89 ∧ c ≠ 78) : ∃ a, Leads (block Q) s { s with a0 := a, console := rest } := by
  induction junk generalizing s with
  | nil =>
    rw [List.nil_append] at h
    subst h
    exact ⟨s.a0, .refl⟩
  | cons c junk ih =>
    obtain ⟨⟨hyes, hno⟩, hjunk⟩ := List.forall_mem_cons.1 hjunk
    have hround : Leads (block Q) s { s with a0 := c.setWidth 32, console := junk ++ rest } := by
      refine .of_inl ?_
      rw [block, hpc]
      dsimp only
      rw [readChar, h]
      show (if c.setWidth 32 = BitVec.ofNat 32 89 then _ else if c.setWidth 32 = BitVec.ofNat 32 78 then _ else _) = _
      rw [if_neg (mt (setWidth_eq_iff (by decide)).1 hyes), if_neg (mt (setWidth_eq_iff (by decide)).1 hno), hpc]
      rfl
    obtain ⟨a, hrest⟩ := ih (s := { s with a0 := c.setWidth 32, console := junk ++ rest }) hpc rfl hjunk
    exact ⟨a, hround.trans hrest⟩

/-- The ends of `output` and of `program`. -/
theorem leads_epilog {r₀ r₁ : Word} (hpc : s.pc = .at .epilog)
    (hstack : s.stack = Q.addr .programEpilog :: r₁ :: r₀ :: w :: ws) :
    Leads (block Q) s (({ s with saved := { s.saved with s0 := r₀, s1 := r₁ } }.popped w ws).jump Q) := by
  have hout : Leads (block Q) s (({ s with
      saved := { s.saved with s0 := r₀, s1 := r₁ }
      pc := .at .programEpilog }).popped (Q.addr .programEpilog) (w :: ws)) := by
    refine .of_inl ?_
    rw [block, hpc]
    dsimp only
    rw [State.load, State.load, State.load, hstack, State.jump_of_eq rfl]
    rfl
  exact hout.step rfl

/-! ## Where the answer goes -/

theorem cstringAt_of_spells {m : Ram} {a : Word} {bs : List Byte} {i : ℕ} (h : Spells m a (bs ++ [0])) (hbs : 0 ∉ bs)
    (hi : bs.length < i) : cstringAt m i a = bs := by
  induction bs generalizing a i with
  | nil =>
    obtain ⟨i, rfl⟩ := Nat.exists_eq_succ_of_ne_zero (Nat.ne_of_gt hi)
    rw [cstringAt, if_pos (spells_cons.1 h).1]
  | cons x bs ih =>
    obtain ⟨i, rfl⟩ := Nat.exists_eq_succ_of_ne_zero (Nat.ne_of_gt (Nat.zero_lt_of_lt hi))
    obtain ⟨hx, hrest⟩ := spells_cons.1 h
    obtain ⟨hne, hbs⟩ := not_or.1 (mt List.mem_cons.2 hbs)
    rw [cstringAt, if_neg (by rw [hx]; exact Ne.symm hne), hx, ih hrest hbs (Nat.lt_of_succ_lt_succ hi)]

theorem zero_notMem_fourDigits (h : k ≤ 10240) : 0 ∉ fourDigits k := by
  have hdigit : ∀ d ≤ 10, BitVec.ofNat 8 (d + 48) ≠ 0 := by decide
  simp only [fourDigits, List.mem_map, not_exists, not_and, List.mem_cons, List.not_mem_nil, or_false]
  rintro d hd
  exact hdigit d (by omega)

theorem zero_notMem_report (hv : k ≤ 10240) {c : ℕ} (hc : c ≤ 10240) : 0 ∉ report k c := by
  have hvow : 0 ∉ vow := by decide
  have hcons : 0 ∉ cons := by decide
  simp only [report, List.mem_append, not_or]
  exact ⟨⟨⟨hvow, zero_notMem_fourDigits hv⟩, hcons⟩, zero_notMem_fourDigits hc⟩

/-- The name of a file to write has been typed. -/
theorem leads_save (hpc : s.pc = .at .saveStringToFile) (h : s.console = n.line ++ rest)
    (hopen : Q.writable n.bytes = true ∧ s.files.Takes Q.maxFiles n.bytes) :
    Leads (block Q) s ({ s with
        fileName := n.bytes
        console := rest
        printed := s.printed ++ [writePrompt]
        files := s.files.write n.bytes (loadBytes s.machine.mem s.a0 s.a1.toNat) }.jump Q) := by
  refine .of_inl ?_
  rw [block, hpc]
  dsimp only
  refine (andThen_strGet (?_ : _ = n.line ++ rest) _).trans ?_
  · exact h
  refine (if_pos hopen).trans ?_
  rfl

theorem leads_refused (hpc : s.pc = .at .saveStringToFile) (h : s.console = n.line ++ rest)
    (hopen : ¬ (Q.writable n.bytes = true ∧ s.files.Takes Q.maxFiles n.bytes)) :
    Leads (block Q) s ({ s with
        fileName := n.bytes
        console := rest
        printed := s.printed ++ [writePrompt]
        saved := { s.saved with s3 := s.a0, s6 := s.a1 }
        stack := s.saved.frame s.ra ++ s.stack
        files := s.files.keep Q.maxFiles n.bytes }).erName := by
  refine .of_inl ?_
  rw [block, hpc]
  dsimp only
  refine (andThen_strGet (?_ : _ = n.line ++ rest) _).trans ?_
  · exact h
  refine (if_neg hopen).trans ?_
  rfl

section Ending

variable {s' : State} {junk more : List Byte}

/-- `N`: the name of a file is asked for. -/
theorem Offers.leads_no (ho : Offers Q k file s s') (hjunk : ∀ c ∈ junk, c ≠ 89 ∧ c ≠ 78)
    (h : s'.console = junk ++ 78 :: more) : Leads (block Q) s' ({ s' with
      a0 := s'.saved.s0
      a1 := 50
      console := more }.call Q .saveStringToFile .epilog) := by
  obtain ⟨a, hleads⟩ := leads_junk (Q := Q) ho.pc h hjunk
  refine hleads.step ?_
  rw [block, ho.pc]
  dsimp only
  rw [readChar]
  rw [← ho.s1]
  rfl

/-- The program returns. -/
structure Answered (Q : Setting) (k : ℕ) (file : List Byte) (e : Ending) (more : List Byte) (s t : State) : Prop where
  ra : t.ra = s.ra
  stack : t.stack = s.stack
  console : t.console = more
  printed : t.printed = s.printed ++ [outToConsole, e.printed file]
  files : t.files = e.files file s.files
  ready : Ready Q.layout k t.machine

theorem Offers.leads_ending (ho : Offers Q k file s s') (hjunk : ∀ c ∈ junk, c ≠ 89 ∧ c ≠ 78) {e : Ending}
    (he : e.Possible Q) (hnew : ∀ name ∈ e.outs, s.files.Takes Q.maxFiles name)
    (h : s.console = junk ++ (e.typed ++ more)) :
    ∃ t : State, Leads (block Q) s' (t.jump Q) ∧ Answered Q k file e more s t := by
  rw [← ho.console] at h
  have hprinted : ∀ t, s'.printed ++ [t] = s.printed ++ [outToConsole, t] := by
    intro t
    rw [ho.printed, List.append_assoc]
    rfl
  cases e with
  | console =>
    obtain ⟨a, hleads⟩ := leads_junk (Q := Q) ho.pc h hjunk
    have hprint : cstringAt s'.machine.mem Q.fuel s'.saved.s0 =
        report (numVowels (text file)) (numConsonants (text file)) := by
      refine cstringAt_of_spells ho.spells (zero_notMem_report (numVowels_le file) (numConsonants_le file)) ?_
      exact Nat.lt_of_lt_of_le (show 49 < 10240 by decide) Q.fuel_le
    have hyes : Leads (block Q) s' { s' with
        a0 := 89
        console := more
        printed := s'.printed ++ [report (numVowels (text file)) (numConsonants (text file))]
        pc := .at .epilog } := by
      refine hleads.step ?_
      rw [block, ho.pc, ← hprint]
      rfl
    exact ⟨_, hyes.trans (leads_epilog rfl ho.stack), rfl, rfl, rfl, hprinted _, ho.files, ho.ready⟩
  | file out =>
    have hsave := ho.leads_no hjunk (show s'.console = junk ++ 78 :: (out.line ++ more) by rw [h, Ending.typed]; simp)
    have hwrite : loadBytes s'.machine.mem s'.saved.s0 50 =
        answer (numVowels (text file)) (numConsonants (text file)) := ho.spells.loadBytes_eq
    have hfree : s'.files.Takes Q.maxFiles out.bytes := by
      rw [ho.files]
      exact hnew _ List.mem_cons_self
    have hwritten : Leads (block Q) s' { s' with
        a0 := s'.saved.s0
        a1 := 50
        ra := Q.addr .epilog
        fileName := out.bytes
        console := more
        printed := s'.printed ++ [writePrompt]
        files := s'.files.write out.bytes (answer (numVowels (text file)) (numConsonants (text file)))
        pc := .at .epilog } := by
      have hleads := leads_save (Q := Q) (s := { s' with
        a0 := s'.saved.s0
        a1 := 50
        console := out.line ++ more }.call Q .saveStringToFile .epilog) rfl rfl ⟨he, hfree⟩
      rw [State.jump_of_eq rfl] at hleads
      refine (hsave.trans hleads).trans ?_
      rw [← hwrite]
      exact .refl
    refine ⟨_, hwritten.trans (leads_epilog rfl ho.stack), rfl, rfl, rfl, hprinted _, ?_, ho.ready⟩
    rw [← ho.files]
    rfl

/-- A file that cannot be written: a name is asked for as if a file was to be read. -/
theorem Offers.leads_unwritable (ho : Offers Q k file s s') (hjunk : ∀ c ∈ junk, c ≠ 89 ∧ c ≠ 78) {out : Name}
    (hout : ¬ Q.writable out.bytes = true) (h : s'.console = junk ++ 78 :: (out.line ++ more)) :
    ∃ t, Leads (block Q) s' t ∧ t.pc = .at .inputName ∧ t.a3 ≠ 0 ∧ t.saved.s6 = 50 ∧ t.console = more ∧
      t.machine = s'.machine ∧ t.files = s'.files.keep Q.maxFiles out.bytes ∧ t.printed = s'.printed ++ [writePrompt] ∧
      ∃ ws, t.stack = Q.addr .epilog :: s.saved.s6 :: ws := by
  have hsave := ho.leads_no hjunk h
  have hleads := leads_refused (Q := Q) (s := { s' with
    a0 := s'.saved.s0
    a1 := 50
    console := out.line ++ more }.call Q .saveStringToFile .epilog) rfl rfl fun h => hout h.1
  refine ⟨_, hsave.trans hleads, rfl, (by decide : (1 : Word) ≠ 0), rfl, rfl, rfl, rfl, rfl, ?_⟩
  rw [← ho.s6]
  exact ⟨_, rfl⟩

theorem leads_answered (hpc : s.pc = .at .program) (hfile : s.files.toRead Q.maxFiles s.fileName = some file)
    (hm : Ready Q.layout (k + 2) s.machine) (hjunk : ∀ c ∈ junk, c ≠ 89 ∧ c ≠ 78) {e : Ending} (he : e.Possible Q)
    (hnew : ∀ name ∈ e.outs, s.files.Takes Q.maxFiles name) (h : s.console = junk ++ (e.typed ++ more)) :
    ∃ t : State, Leads (block Q) s (t.jump Q) ∧ Answered Q k file e more s t := by
  obtain ⟨s', hprogram, ho⟩ := leads_program hpc hfile hm
  obtain ⟨t, hending, ht⟩ := ho.leads_ending hjunk he hnew h
  exact ⟨t, hprogram.trans hending, ht⟩

end Ending

/-! ## The whole program -/

variable {m : Machine} {choice : Byte} {bad : List Name} {good : Name} {junk more : List Byte}
  {disk : List Byte → Option (List Byte)}

/-- Before the first name is typed. -/
theorem leads_main (disk : List Byte → Option (List Byte)) (hchoice : choice ≠ 89) (console : List Byte) :
    ∃ s, Leads (block Q) (.start m (choice :: console) disk) s ∧ s.pc = .at .inputName ∧ s.a3 = 0 ∧
    s.stack = [Q.addr .mainProgram] ∧ s.saved.s6 = 0 ∧ s.console = console ∧ s.printed = [choosePrompt] ∧
      s.files = ⟨disk, []⟩ ∧ s.machine = m := by
  have hread : block Q (.start m (choice :: console) disk) =
      .inl (({ State.start m console disk with
        a0 := choice.setWidth 32
        saved := ⟨choice.setWidth 32, 0, 0, 0, 0, 0, 0⟩
        printed := [choosePrompt] }).call Q .readNameOfFile .mainProgram) := by
    show (if choice.setWidth 32 = BitVec.ofNat 32 89 then _ else _) = _
    rw [if_neg (mt (setWidth_eq_iff (by decide)).1 hchoice)]
    rfl
  exact ⟨_, (Leads.of_inl hread).step rfl, rfl, rfl, rfl, rfl, rfl, rfl, rfl, rfl⟩

/-- The program is called with the name of a file. -/
structure Called (Q : Setting) (k : ℕ) (bad : List Name) (good : Name) (rest : List Byte)
    (disk : List Byte → Option (List Byte)) (s : State) : Prop where
  pc : s.pc = .at .program
  ra : s.ra = Q.addr .mainExit
  s6 : s.saved.s6 = 0
  fileName : s.fileName = good.bytes
  console : s.console = rest
  printed : s.printed = choosePrompt :: List.replicate (bad.length + 1) readPrompt
  files : Files.Kept ⟨disk, []⟩ s.files (bad.map Name.bytes)
  ready : Ready Q.layout k s.machine

theorem Called.toRead {rest : List Byte} (h : Called Q k bad good rest disk s) (hle : bad.length ≤ 1)
    (hbad : ∀ n ∈ bad, disk n.bytes = none) (hgood : disk good.bytes = some file) :
    s.files.toRead Q.maxFiles s.fileName = some file := by
  have hnames := name_notMem (f := ⟨disk, []⟩) hbad hgood
  have hlen : (bad.map Name.bytes).length ≤ 2 := by
    rw [List.length_map]
    exact Nat.le_succ_of_le hle
  rw [h.fileName]
  exact (h.files.toRead List.not_mem_nil hnames (Q.lt_maxFiles disk hlen)).trans hgood

/-- The first name does not open. -/
theorem leads_first (rest : List Byte) (hchoice : choice ≠ 89) (hbad : disk n.bytes = none) :
    ∃ s, Leads (block Q) (.start m (choice :: (n.line ++ rest)) disk) s ∧ s.pc = .at .inputName ∧ s.a3 ≠ 0 ∧
      s.saved.s6 = 0 ∧ s.console = rest ∧ s.printed = [choosePrompt, readPrompt] ∧
      Files.Kept ⟨disk, []⟩ s.files [n.bytes] ∧ s.machine = m ∧ ∃ ws, s.stack = Q.addr .mainProgram :: ws := by
  obtain ⟨s, hleads, hpc, h3, hstack, hs6, hconsole, hprinted, hfiles, rfl⟩ :=
    leads_main (Q := Q) (m := m) disk hchoice (n.line ++ rest)
  have hinput := leads_inputName (Q := Q) hpc hconsole
  rw [if_pos h3] at hinput
  have hepilog := leads_readNameEpilog (Q := Q) (s := { s.named n rest with pc := .at .readNameEpilog }) rfl hstack
  have hnone : s.files.toRead Q.maxFiles n.bytes = none := Files.toRead_of_none (by rw [hfiles]; exact hbad)
  refine ⟨_, hleads.trans (hinput.trans (hepilog.trans (leads_wrong rfl hnone))), rfl, (by decide : (1 : Word) ≠ 0),
    hs6, rfl, ?_, ?_, rfl, _, rfl⟩
  · show s.printed ++ [readPrompt] = _
    rw [hprinted]
    rfl
  · rw [← hfiles]
    exact s.files.kept_keep _ _

/-- At most one name does not open. -/
theorem leads_called (rest : List Byte) (hm : Ready Q.layout (k + 2) m) (hchoice : choice ≠ 89)
    (hbad : ∀ n ∈ bad, disk n.bytes = none) (hgood : disk good.bytes = some file) (hle : bad.length ≤ 1) :
    ∃ s, Leads (block Q) (.start m (choice :: (bad.flatMap Name.line ++ (good.line ++ rest))) disk) s ∧
      Called Q k bad good rest disk s := by
  have hnames := name_notMem (f := ⟨disk, []⟩) hbad hgood
  match bad with
  | [] =>
    obtain ⟨s, hleads, hpc, h3, hstack, hs6, hconsole, hprinted, hfiles, rfl⟩ :=
      leads_main (Q := Q) (m := m) disk hchoice (good.line ++ rest)
    have hkept : Files.Kept ⟨disk, []⟩ s.files [] := hfiles ▸ Files.kept_refl _
    have hopen : s.files.toRead Q.maxFiles good.bytes = some file :=
      (hkept.toRead List.not_mem_nil List.not_mem_nil (Q.lt_maxFiles disk (Nat.zero_le 2))).trans hgood
    have hinput := leads_inputName (Q := Q) hpc hconsole
    rw [if_pos h3] at hinput
    obtain ⟨a, m', hm', -, hagain⟩ := leads_again (Q := Q) (k := k + 1)
      (s := { s.named good rest with pc := .at .readNameEpilog }) rfl hstack hopen hm
    rw [State.jump_of_eq rfl] at hagain
    refine ⟨_, (hleads.trans (hinput.trans hagain)).step rfl, rfl, rfl, hs6, rfl, rfl, ?_, hkept, hm'.mono⟩
    show s.printed ++ [readPrompt] = _
    rw [hprinted]
    rfl
  | [n] =>
    rw [List.flatMap_cons, List.append_assoc]
    obtain ⟨s, hleads, hpc, h3, hs6, hconsole, hprinted, hkept, rfl, ws, hstack⟩ :=
      leads_first (Q := Q) (m := m) (good.line ++ rest) hchoice (hbad n List.mem_cons_self)
    have hopen : s.files.toRead Q.maxFiles good.bytes = some file :=
      (hkept.toRead List.not_mem_nil hnames (Q.lt_maxFiles disk (Nat.le_succ 1))).trans hgood
    obtain ⟨a, m', hm', -, hright⟩ := leads_good (Q := Q) (k := k) hpc h3 hconsole hopen hstack hm
    rw [State.jump_of_eq rfl] at hright
    refine ⟨_, (hleads.trans hright).step rfl, rfl, rfl, hs6, rfl, rfl, ?_, hkept, hm'⟩
    show s.printed ++ [readPrompt] = _
    rw [hprinted]
    rfl

/-- More than one name does not open. -/
theorem leads_main_lost (rest : List Byte) (hm : Ready Q.layout (k + 3) m) (hchoice : choice ≠ 89)
    (hbad : ∀ n ∈ bad, disk n.bytes = none) (hgood : disk good.bytes = some file) (hlt : 1 < bad.length)
    (hroom : bad.length < Q.maxFiles) :
    ∃ s, Leads (block Q) (.start m (choice :: (bad.flatMap Name.line ++ (good.line ++ rest))) disk) s ∧
      s.pc = .lost 0 ∧ s.printed = choosePrompt :: List.replicate (bad.length + 1) readPrompt ∧
      s.files.contents = disk := by
  have hnames := name_notMem (f := ⟨disk, []⟩) hbad hgood
  obtain ⟨n, bad, rfl⟩ := List.exists_cons_of_length_pos (Nat.zero_lt_of_lt hlt)
  rw [List.flatMap_cons, List.append_assoc]
  rw [List.map_cons, List.mem_cons, not_or] at hnames
  obtain ⟨s, hleads, hpc, h3, hs6, hconsole, hprinted, hkept, rfl, -⟩ := leads_first (Q := Q) (m := m)
    (bad.flatMap Name.line ++ (good.line ++ rest)) hchoice (hbad n List.mem_cons_self)
  have hopened : good.bytes ∉ s.files.opened := by
    intro hmem
    rcases hkept.opened _ hmem with h | h
    · exact List.not_mem_nil h
    · exact hnames.1 (List.mem_singleton.1 h)
  have hlength : s.files.opened.length ≤ 1 := hkept.length_le
  have htable : s.files.opened.length + bad.length < Q.maxFiles := by
    rw [List.length_cons] at hroom
    omega
  obtain ⟨t, hlost, hpc', -, hprinted', hcontents⟩ := leads_lost (Q := Q) (k := k) hpc h3 hconsole
    (by rintro rfl; exact absurd hlt (Nat.lt_irrefl 1))
    (fun n hn => (congrFun hkept.same _).trans (hbad n (List.mem_cons_of_mem _ hn)))
    ((congrFun hkept.same _).trans hgood) hopened htable
    (by rw [hs6]; decide) hm
  refine ⟨t, hleads.trans hlost, ?_, ?_, hcontents.trans hkept.same⟩
  · rw [hpc']
    exact congrArg Pc.lost hs6
  · rw [hprinted', hprinted]
    rfl

/-- **The names that are typed.**  The program comes to its end, and its answer goes where it is
    to go, if and only if at most one name does not open; after two of them it jumps to 0, and
    there is no answer.  The simulator has room for the names, and the answer does not go to a
    file whose name has not opened before. -/
theorem answers_iff (hm : Ready Q.layout 5 m) (hchoice : choice ≠ 89) (hbad : ∀ n ∈ bad, disk n.bytes = none)
    (hroom : bad.length < Q.maxFiles) (hgood : disk good.bytes = some file) (hjunk : ∀ c ∈ junk, c ≠ 89 ∧ c ≠ 78)
    {e : Ending} (he : e.Possible Q) (hnew : ∀ name ∈ e.outs, name ∉ bad.map Name.bytes) (more : List Byte) :
    ∃ stop s, Returns (block Q) (.start m
        (choice :: (bad.flatMap Name.line ++ (good.line ++ (junk ++ (e.typed ++ more))))) disk) (stop, s) ∧
      (stop = .exited ↔ bad.length ≤ 1) ∧ (stop = .lost 0 ↔ 2 ≤ bad.length) ∧
      s.printed = choosePrompt :: List.replicate (bad.length + 1) readPrompt ++
        (if bad.length ≤ 1 then [outToConsole, e.printed file] else []) ∧
      s.files.contents = if bad.length ≤ 1 then e.disk file disk else disk := by
  by_cases hle : bad.length ≤ 1
  · obtain ⟨s, hleads, hs⟩ := leads_called (k := 3) (junk ++ (e.typed ++ more)) hm hchoice hbad hgood hle
    have hlen : (bad.map Name.bytes).length ≤ 2 := by
      rw [List.length_map]
      exact Nat.le_succ_of_le hle
    have htakes : ∀ name ∈ e.outs, s.files.Takes Q.maxFiles name := fun name hname =>
      hs.files.takes List.not_mem_nil (hnew name hname) (Q.lt_maxFiles disk hlen)
    obtain ⟨t, hanswered, ht⟩ := leads_answered (k := 1) hs.pc (hs.toRead hle hbad hgood) hs.ready hjunk he htakes
      hs.console
    rw [State.jump_of_eq (ht.ra.trans hs.ra)] at hanswered
    refine ⟨.exited, _, (hleads.trans hanswered).returns_iff.2 (returns_of_inr rfl), ?_, ?_, ?_, ?_⟩
    · exact iff_of_true rfl hle
    · exact iff_of_false Stop.noConfusion (by omega)
    · rw [if_pos hle]
      show t.printed = _
      rw [ht.printed, hs.printed]
    · rw [if_pos hle]
      show t.files.contents = _
      rw [ht.files]
      show e.disk file s.files.contents = _
      rw [hs.files.same]
  · obtain ⟨s, hleads, hpc, hprinted, hfiles⟩ := leads_main_lost (k := 2) (junk ++ (e.typed ++ more)) hm hchoice hbad
      hgood (Nat.lt_of_not_le hle) hroom
    refine ⟨.lost 0, s, hleads.returns_iff.2 (returns_of_inr (by rw [block, hpc])), ?_, ?_, ?_, ?_⟩
    · exact iff_of_false Stop.noConfusion hle
    · exact iff_of_true rfl (Nat.lt_of_not_le hle)
    · rw [if_neg hle, hprinted, List.append_nil]
    · rw [if_neg hle, hfiles]

/-- The first call of the autotest. -/
theorem leads_runTests (disk : List Byte → Option (List Byte)) (console : List Byte) :
    ∃ s, Leads (block Q) (.start m (89 :: console) disk) s ∧ s.pc = .at .program ∧ s.ra = Q.addr .runTests2 ∧
      s.stack = [Q.addr .testsExit] ∧ s.fileName = beatles ∧ s.console = console ∧ s.printed = [choosePrompt] ∧
      s.files = ⟨disk, []⟩ ∧ s.machine = m := by
  have hread : block Q (.start m (89 :: console) disk) = .inl { State.start m console disk with
      pc := .at .tests
      a0 := 89
      saved := ⟨89, 0, 0, 0, 0, 0, 0⟩
      printed := [choosePrompt] } := rfl
  exact ⟨_, ((Leads.of_inl hread).step rfl).step rfl, rfl, rfl, rfl, rfl, rfl, rfl, rfl, rfl⟩

theorem Ending.length_outs_le (e : Ending) : e.outs.length ≤ 1 := by
  cases e with
  | console => exact Nat.zero_le 1
  | file => exact Nat.le_refl 1

theorem Ending.uses_files (file : List Byte) (f : Files) (e : Ending) : f.Uses (e.files file f) e.outs := by
  refine ⟨fun name hname => ?_, fun name hmem => (List.mem_append.1 hmem).symm, ?_⟩
  · cases e with
    | console => rfl
    | file out =>
      have hne : name ≠ out.bytes := fun heq => hname (List.mem_singleton.2 heq)
      exact Function.update_of_ne hne _ _
  · show (e.outs ++ f.opened).length ≤ _
    rw [List.length_append, Nat.add_comm]

/-- **The autotest.**  When its three files are there, and each answer has a place to go, the
    program gives the three answers and ends.  What it writes stays open: no name may be used
    twice for an answer, or for an answer before the test of that name. -/
theorem autotest_answers (hm : Ready Q.layout 6 m) {file₁ file₂ file₃ junk₁ junk₂ junk₃ : List Byte}
    {e₁ e₂ e₃ : Ending} (he₁ : e₁.Possible Q) (he₂ : e₂.Possible Q) (he₃ : e₃.Possible Q)
    (h₁ : disk beatles = some file₁) (h₂ : disk qeen = some file₂) (h₃ : disk holyBible = some file₃)
    (hqeen : qeen ∉ e₁.outs) (hbible : holyBible ∉ e₁.outs ++ e₂.outs) (houts₂ : ∀ name ∈ e₂.outs, name ∉ e₁.outs)
    (houts₃ : ∀ name ∈ e₃.outs, name ∉ e₁.outs ++ e₂.outs) (hjunk₁ : ∀ c ∈ junk₁, c ≠ 89 ∧ c ≠ 78)
    (hjunk₂ : ∀ c ∈ junk₂, c ≠ 89 ∧ c ≠ 78) (hjunk₃ : ∀ c ∈ junk₃, c ≠ 89 ∧ c ≠ 78) (more : List Byte) :
    ∃ s, Returns (block Q) (.start m (89 :: (junk₁ ++ (e₁.typed ++ (junk₂ ++ (e₂.typed ++ (junk₃ ++
        (e₃.typed ++ more))))))) disk) (.exited, s) ∧
      s.printed = [choosePrompt, outToConsole, e₁.printed file₁, outToConsole, e₂.printed file₂, outToConsole,
        e₃.printed file₃] ∧
      s.files.contents = e₃.disk file₃ (e₂.disk file₂ (e₁.disk file₁ disk)) := by
  obtain ⟨s, hleads, hpc, hra, hstack, hname, hconsole, hprinted, hfiles, rfl⟩ := leads_runTests (Q := Q) (m := m) disk
    (junk₁ ++ (e₁.typed ++ (junk₂ ++ (e₂.typed ++ (junk₃ ++ (e₃.typed ++ more))))))
  -- the names that are used are those of the answers, two at most before the last one
  have hlen₁ := e₁.length_outs_le
  have hlen₂ := e₂.length_outs_le
  have huses : Files.Uses ⟨disk, []⟩ s.files [] := hfiles ▸ (Files.kept_refl _).toUses
  have hroom : (Files.mk disk []).opened.length + ([] : List (List Byte)).length < Q.maxFiles :=
    Q.lt_maxFiles disk (Nat.zero_le 2)
  obtain ⟨t₁, hanswered₁, ht₁⟩ := leads_answered (k := 4) hpc
    (hname ▸ (huses.toRead List.not_mem_nil List.not_mem_nil hroom).trans h₁) hm hjunk₁ he₁
    (fun name _ => huses.takes List.not_mem_nil List.not_mem_nil hroom) hconsole
  rw [State.jump_of_eq (ht₁.ra.trans hra)] at hanswered₁
  have huses₁ : Files.Uses ⟨disk, []⟩ t₁.files e₁.outs := ht₁.files ▸ huses.trans (e₁.uses_files file₁ s.files)
  have hroom₁ := Q.lt_maxFiles disk (Nat.le_succ_of_le hlen₁)
  obtain ⟨t₂, hanswered₂, ht₂⟩ := leads_answered (Q := Q) (k := 2)
    (s := { t₁ with fileName := qeen }.call Q .program .runTests3) rfl
    ((huses₁.toRead List.not_mem_nil hqeen hroom₁).trans h₂) ht₁.ready hjunk₂ he₂
    (fun name hname => huses₁.takes List.not_mem_nil (houts₂ name hname) hroom₁) ht₁.console
  rw [State.jump_of_eq ht₂.ra] at hanswered₂
  have hfiles₂ : t₂.files = e₂.files file₂ t₁.files := ht₂.files
  have huses₂ : Files.Uses ⟨disk, []⟩ t₂.files (e₁.outs ++ e₂.outs) :=
    hfiles₂ ▸ huses₁.trans (e₂.uses_files file₂ t₁.files)
  have hlen : (e₁.outs ++ e₂.outs).length ≤ 2 := by
    rw [List.length_append]
    omega
  have hroom₂ := Q.lt_maxFiles disk hlen
  obtain ⟨t₃, hanswered₃, ht₃⟩ := leads_answered (Q := Q) (k := 0)
    (s := { t₂ with fileName := holyBible }.call Q .program .testsEpilog) rfl
    ((huses₂.toRead List.not_mem_nil hbible hroom₂).trans h₃) ht₂.ready hjunk₃ he₃
    (fun name hname => huses₂.takes List.not_mem_nil (houts₃ name hname) hroom₂) ht₂.console
  rw [State.jump_of_eq ht₃.ra] at hanswered₃
  have hstack₃ : t₃.stack = [Q.addr .testsExit] := ht₃.stack.trans (ht₂.stack.trans (ht₁.stack.trans hstack))
  have hthree := ((((hleads.trans hanswered₁).step rfl).trans hanswered₂).step rfl).trans hanswered₃
  have hepilog : block Q { t₃ with pc := .at .testsEpilog } =
      .inl { t₃.popped (Q.addr .testsExit) [] with pc := .at .testsExit } := by
    rw [block]
    dsimp only
    rw [State.load, hstack₃, State.jump_of_eq rfl]
    rfl
  refine ⟨_, (hthree.step hepilog).returns_iff.2 (returns_of_inr rfl), ?_, ?_⟩
  · show t₃.printed = _
    rw [ht₃.printed]
    show t₂.printed ++ _ = _
    rw [ht₂.printed]
    show t₁.printed ++ _ ++ _ = _
    rw [ht₁.printed, hprinted]
    rfl
  · have hfiles₃ : t₃.files = e₃.files file₃ t₂.files := ht₃.files
    show t₃.files.contents = _
    rw [hfiles₃, hfiles₂, ht₁.files, hfiles]
    rfl

/-- Code from the usual address on, and no file in a directory can be written. -/
def Setting.small : Setting where
  layout := .small
  addr p := 0x00400000 + BitVec.ofNat 32 (4 * Label.all.idxOf p)
  addr_inj := by
    intro p q h
    revert h
    cases p <;> cases q <;> decide
  text_le p := by cases p <;> decide
  writable name := decide (0x2f ∉ name)
  maxFiles := 29
  maxFiles_ge := by decide
  fuel := 10240
  fuel_le := Nat.le_refl _

theorem ready_start : Ready .small 7 (.start []) := by
  refine ⟨(started_start []).tables, Nat.le_refl _, by decide, fun a ha => ?_⟩
  have hheap : (Machine.start []).brk.toNat = 0x10040000 := rfl
  have hbase : (0x10010000 : Word).toNat = 0x10010000 := rfl
  have hlt := a.isLt
  have hout : segment.length ≤ (a - 0x10010000).toNat := by
    rw [show segment.length = 100 by decide, BitVec.toNat_sub]
    omega
  exact storeBytes_of_le hout fun _ => 0

/-- One file. -/
def oneFile (name : List Byte) : Option (List Byte) := if name = [97] then some (ascii "Hello") else none

/-- The names `a`, `b` and `/`. -/
def nameA : Name := ⟨[97], by decide, by decide, by decide⟩
def nameB : Name := ⟨[98], by decide, by decide, by decide⟩
def nameDir : Name := ⟨[0x2f], by decide, by decide, by decide⟩

/-- The answer is written over the file that has been read. -/
theorem answers_iff_hello : ∃ s, Returns (block .small) (.start (.start [])
    (120 :: (nameB.line ++ (nameA.line ++ ([113] ++ (78 :: nameA.line))))) oneFile) (.exited, s) ∧
      s.files.contents [97] = some (answer 2 3) := by
  obtain ⟨stop, s, hreturns, hexited, -, -, hdisk⟩ := @answers_iff .small (ascii "Hello") (.start []) 120 [nameB] nameA
    [113] oneFile ready_start.mono.mono (by decide) (by decide) (by decide) rfl (by decide) (.file nameA)
    (show Setting.small.writable [97] = true by decide) (by decide) []
  obtain rfl := hexited.2 (Nat.le_refl _)
  have hvowels : numVowels (text (ascii "Hello")) = 2 := by decide
  have hconsonants : numConsonants (text (ascii "Hello")) = 3 := by decide
  refine ⟨s, hreturns, ?_⟩
  rw [hdisk, if_pos (show [nameB].length ≤ 1 from Nat.le_refl _), Ending.disk, hvowels, hconsonants]
  exact Function.update_self nameA.bytes (some (answer 2 3)) oneFile

/-- The three files of the autotest, with one text. -/
def oneText (name : List Byte) : Option (List Byte) :=
  if name = beatles ∨ name = qeen ∨ name = holyBible then some (ascii "Hello") else none

/-- The first two answers go to the files `a` and `b`. -/
theorem autotest_answers_hello : ∃ s, Returns (block .small) (.start (.start [])
    (89 :: ([] ++ (78 :: nameA.line ++ ([] ++ (78 :: nameB.line ++ ([] ++ ([89] ++ []))))))) oneText) (.exited, s) ∧
      s.printed = [choosePrompt, outToConsole, writePrompt, outToConsole, writePrompt, outToConsole, report 2 3] ∧
      s.files.contents [97] = some (answer 2 3) := by
  obtain ⟨s, hreturns, hprinted, hdisk⟩ := @autotest_answers .small (.start []) oneText ready_start.mono
    (ascii "Hello") (ascii "Hello") (ascii "Hello") [] [] [] (.file nameA) (.file nameB) .console
    (show Setting.small.writable [97] = true by decide) (show Setting.small.writable [98] = true by decide) trivial
    rfl rfl rfl (by decide) (by decide) (by decide) (by decide) (by decide) (by decide) (by decide) []
  have hvowels : numVowels (text (ascii "Hello")) = 2 := by decide
  have hconsonants : numConsonants (text (ascii "Hello")) = 3 := by decide
  simp only [Ending.printed, hvowels, hconsonants] at hprinted
  refine ⟨s, hreturns, hprinted, ?_⟩
  rw [hdisk]
  simp only [Ending.disk, hvowels, hconsonants]
  rw [Function.update_of_ne (show [97] ≠ nameB.bytes by decide)]
  exact Function.update_self nameA.bytes (some (answer 2 3)) oneText

/-- **A file that cannot be written.**  The program asks for the name of a file to read, reads
    the one that opens, and is lost, without an answer.  The simulator has room for the names, and
    does not take the name of the file again. -/
theorem lost_of_unwritable (hm : Ready Q.layout 7 m) (hchoice : choice ≠ 89) (hbad : ∀ n ∈ bad, disk n.bytes = none)
    (hgood : disk good.bytes = some file) (hle : bad.length ≤ 1) (hjunk : ∀ c ∈ junk, c ≠ 89 ∧ c ≠ 78) {out : Name}
    (hout : ¬ Q.writable out.bytes = true) {bad' : List Name} (hbad' : ∀ n ∈ bad', disk n.bytes = none)
    (hroom : bad.length + 1 + bad'.length < Q.maxFiles) {good' : Name} {file' : List Byte}
    (hgood' : disk good'.bytes = some file') (hnew : good'.bytes ≠ out.bytes) (more : List Byte) :
    ∃ w s, Returns (block Q) (.start m (choice :: (bad.flatMap Name.line ++ (good.line ++ (junk ++ 78 ::
        (out.line ++ (bad'.flatMap Name.line ++ (good'.line ++ more))))))) disk) (.lost w, s) ∧
      w = (if bad' = [] then 0 else 50) ∧ s.Holds file' ∧ s.files.contents = disk ∧
      s.printed = choosePrompt :: List.replicate (bad.length + 1) readPrompt ++
        [outToConsole, writePrompt] ++ List.replicate (bad'.length + 1) readPrompt := by
  obtain ⟨s, hleads, hs⟩ := leads_called (k := 5)
    (junk ++ 78 :: (out.line ++ (bad'.flatMap Name.line ++ (good'.line ++ more)))) hm hchoice hbad hgood hle
  obtain ⟨s', hprogram, ho⟩ := leads_program (k := 3) hs.pc (hs.toRead hle hbad hgood) hs.ready
  obtain ⟨t, hasks, hpc, h3, hs6, hconsole, hmachine, hfiles, hprinted, ws, hstack⟩ :=
    ho.leads_unwritable hjunk hout (ho.console.trans hs.console)
  have hkept : Files.Kept ⟨disk, []⟩ t.files (bad.map Name.bytes ++ [out.bytes]) := by
    rw [hfiles, ho.files]
    exact hs.files.trans (s.files.kept_keep _ _)
  have hnames : good'.bytes ∉ bad.map Name.bytes ++ [out.bytes] := by
    rw [List.mem_append, List.mem_singleton, not_or]
    exact ⟨name_notMem (f := ⟨disk, []⟩) hbad hgood', hnew⟩
  have hcontents := hkept.same
  have hopened : good'.bytes ∉ t.files.opened := fun hmem => (hkept.opened _ hmem).elim List.not_mem_nil hnames
  have hlength : t.files.opened.length ≤ bad.length + 1 := by
    have hle' := hkept.length_le
    rw [List.length_append, List.length_map] at hle'
    exact hle'.trans (Nat.le_of_eq (Nat.zero_add _))
  have hready : Ready Q.layout 3 t.machine := hmachine ▸ ho.ready
  rw [hs.s6] at hstack
  have hprinted' : t.printed = choosePrompt :: List.replicate (bad.length + 1) readPrompt ++
      [outToConsole, writePrompt] := by
    rw [hprinted, ho.printed, hs.printed, List.append_assoc]
    rfl
  rcases eq_or_ne bad' [] with rfl | hne
  · have hopen : t.files.toRead Q.maxFiles good'.bytes = some file' := by
      rw [Files.toRead, if_pos ⟨hopened, by rw [List.length_nil] at hroom; omega⟩, hcontents, ← hgood']
    obtain ⟨a, m', -, htext, hagain⟩ := leads_good (k := 1) hpc h3 hconsole hopen hstack hready
    rw [State.jump_of_eq rfl] at hagain
    have hlost := ((hleads.trans hprogram).trans (hasks.trans hagain)).step rfl
    rw [State.jump_of_lt (show (0 : Word).toNat < 0x00400000 by decide)] at hlost
    refine ⟨0, _, hlost.returns_iff.2 (returns_of_inr rfl), rfl, ⟨htext, rfl⟩, hcontents, ?_⟩
    show t.printed ++ [readPrompt] = _
    rw [hprinted']
    rfl
  · obtain ⟨u, hlost, hpc', hholds, hprinted'', hfiles'⟩ := leads_lost (k := 0) hpc h3 hconsole hne
      (fun n hn => (congrFun hcontents _).trans (hbad' n hn)) ((congrFun hcontents _).trans hgood') hopened
      (by omega) (by rw [hs6]; decide) hready
    rw [hs6] at hpc'
    refine ⟨50, u, ((hleads.trans hprogram).trans (hasks.trans hlost)).returns_iff.2
      (returns_of_inr (by rw [block, hpc'])), (if_neg hne).symm, hholds, hfiles'.trans hcontents, ?_⟩
    rw [hprinted'', hprinted']

theorem lost_of_unwritable_hello : ∃ s, Returns (block .small) (.start (.start [])
    (120 :: (nameA.line ++ (78 :: (nameDir.line ++ nameA.line)))) oneFile) (.lost 0, s) ∧ s.Holds (ascii "Hello") ∧
      s.files.contents = oneFile := by
  obtain ⟨w, s, hreturns, hw, hholds, hdisk, -⟩ := @lost_of_unwritable .small (ascii "Hello") (.start []) 120 [] nameA []
    oneFile ready_start (by decide) (by decide) rfl (Nat.zero_le 1) (by decide) nameDir
    (show ¬ Setting.small.writable [0x2f] = true by decide) [] (by decide) (by decide) nameA (ascii "Hello") rfl
    (by decide) []
  obtain rfl := hw
  exact ⟨s, hreturns, hholds, hdisk⟩

end Letters
