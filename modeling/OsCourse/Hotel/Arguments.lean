/-
  `parse_args` of the hotel (IDZ4): which command lines the program runs with, with which
  clients, and which file is written.
-/
import OsCourse.Hotel.Input

namespace Hotel

/-! ## The program -/

/-- The variables of `parse_args`. -/
structure Params where
  out : Text
  source : Text
  isRundom : Bool

def Params.start : Params := { out := "standart_out.txt".toList, source := [], isRundom := false }

/-- How the loop over the arguments ends. -/
inductive Scan
  | badFlags
  | manual
  | done (p : Params)

/-- The loop over the arguments; it begins with the name of the program. -/
def scanArgs (p : Params) : List Text → Scan
  | [] => .done p
  | param :: rest =>
    if param = "-o".toList then
      match rest with
      | [] => .badFlags
      | file :: rest => scanArgs { p with out := file } rest
    else if param = "-s".toList then
      match rest with
      | [] => .badFlags
      | file :: rest => scanArgs { p with source := file } rest
    else if param = "-r".toList then scanArgs { p with isRundom := true } rest
    else if param = "-h".toList then .manual
    else scanArgs p rest

/-- What the files hold that can be opened for reading, and which ones can be opened for
    writing. -/
structure Files where
  read : Text → Option Text
  canWrite : Text → Bool

/-- `fopen(out, "w")` -/
def Files.truncate (files : Files) (out : Text) : Files :=
  { files with read := Function.update files.read out (some []) }

/-- What `parse_args` comes to. -/
inductive Outcome
  | exit (code : ℕ) (message : Text)
  | run (clients : List Client) (out : Text)

/-- `BAD_FLAGS` -/
def badFlags : Outcome := .exit 1 "ERROR :: you print bad flags".toList

/-- The end of `parse_args`: there are no clients if the source cannot be opened. -/
def openOut (files : Files) (p : Params) : Option (List Client) → Outcome × Files
  | none => (.exit 1 ("ERROR :: there is no file ".toList ++ p.source), files)
  | some clients =>
    if files.canWrite p.out then (.run clients p.out, files.truncate p.out)
    else (.exit 0 "ERROR :: could not open file".toList, files)

/-- `parse_args`, where `generated` are the clients that `generateClients` returns. -/
def parseArgs (readClients : Text → List Client) (generated : List Client) (files : Files) (argv : List Text) :
    Outcome × Files :=
  match scanArgs .start argv with
  | .badFlags => (badFlags, files)
  | .manual => (.exit 0 [], files)
  | .done p =>
    if decide (p.source = []) ≠ p.isRundom then (badFlags, files)
    else openOut files p (if p.isRundom then some generated else (files.read p.source).map readClients)

/-! ## The command lines -/

def flags : List Text := ["-o".toList, "-s".toList, "-r".toList, "-h".toList]

/-- What a command line is made of. -/
inductive Item
  | out (file : Text)
  | source (file : Text)
  | random
  /-- it is passed over -/
  | other (word : Text) (h : word ∉ flags)

namespace Item

def words : Item → List Text
  | out file => ["-o".toList, file]
  | source file => ["-s".toList, file]
  | random => ["-r".toList]
  | other word _ => [word]

def out? : Item → Option Text
  | out file => some file
  | _ => none

def source? : Item → Option Text
  | source file => some file
  | _ => none

end Item

/-- The file of the last `-o`. -/
def outOf (items : List Item) : Text := ((items.filterMap Item.out?).getLast?).getD "standart_out.txt".toList

/-- The file of the last `-s`. -/
def sourceOf (items : List Item) : Text := ((items.filterMap Item.source?).getLast?).getD []

/-- What an item does to the variables. -/
def Params.apply (p : Params) : Item → Params
  | .out file => { p with out := file }
  | .source file => { p with source := file }
  | .random => { p with isRundom := true }
  | .other _ _ => p

section
variable {p : Params} {rest : List Text} {word : Text}

theorem scanArgs_other (h : word ∉ flags) : scanArgs p (word :: rest) = scanArgs p rest := by
  have h1 : word ≠ "-o".toList := fun he => h (by simp [flags, he])
  have h2 : word ≠ "-s".toList := fun he => h (by simp [flags, he])
  have h3 : word ≠ "-r".toList := fun he => h (by simp [flags, he])
  have h4 : word ≠ "-h".toList := fun he => h (by simp [flags, he])
  rw [scanArgs.eq_def]
  simp only [if_neg h1, if_neg h2, if_neg h3, if_neg h4]

theorem scanArgs_random : scanArgs p ("-r".toList :: rest) = scanArgs { p with isRundom := true } rest := by
  rw [scanArgs.eq_def]
  rfl

theorem scanArgs_manual : scanArgs p ("-h".toList :: rest) = .manual := by
  rw [scanArgs.eq_def]
  rfl

end

/-- The loop goes from item to item. -/
theorem scanArgs_words (items : List Item) (rest : List Text) (p : Params) :
    scanArgs p (items.flatMap Item.words ++ rest) = scanArgs (items.foldl Params.apply p) rest := by
  induction items generalizing p with
  | nil => rfl
  | cons item items ih =>
    rw [List.flatMap_cons, List.append_assoc, List.foldl_cons, ← ih]
    cases item with
    | out file => rfl
    | source file => rfl
    | random => exact scanArgs_random
    | other word h => exact scanArgs_other h

/-- What is left when the items end. -/
inductive Stops : List Text → Prop
  | done : Stops []
  | out : Stops ["-o".toList]
  | source : Stops ["-s".toList]
  | manual (more : List Text) : Stops ("-h".toList :: more)

/-- Every command line is made of items, up to a `-h` or a flag without its file. -/
theorem exists_items (argv : List Text) :
    ∃ (items : List Item) (rest : List Text), argv = items.flatMap Item.words ++ rest ∧ Stops rest := by
  induction h : argv.length using Nat.strongRecOn generalizing argv with
  | _ n ih =>
    subst h
    -- one item, and the command line behind it
    have hitem : ∀ (item : Item) (argv' : List Text), argv = item.words ++ argv' → argv'.length < argv.length →
        ∃ (items : List Item) (rest : List Text), argv = items.flatMap Item.words ++ rest ∧ Stops rest := by
      intro item argv' heq hlt
      obtain ⟨items, rest, hargv', hstops⟩ := ih _ hlt argv' rfl
      exact ⟨item :: items, rest, by rw [heq, hargv', List.flatMap_cons, List.append_assoc], hstops⟩
    match argv with
    | [] => exact ⟨[], [], rfl, .done⟩
    | word :: argv =>
      by_cases hword : word ∈ flags
      · simp only [flags, List.mem_cons, List.not_mem_nil, or_false] at hword
        rcases hword with rfl | rfl | rfl | rfl
        · match argv with
          | [] => exact ⟨[], _, rfl, .out⟩
          | file :: argv => exact hitem (.out file) argv rfl (by simp only [List.length_cons]; omega)
        · match argv with
          | [] => exact ⟨[], _, rfl, .source⟩
          | file :: argv => exact hitem (.source file) argv rfl (by simp only [List.length_cons]; omega)
        · exact hitem .random argv rfl (by simp)
        · exact ⟨[], _, rfl, .manual argv⟩
      · exact hitem (.other word hword) argv rfl (by simp)

/-! ## What the variables hold -/

/-- A variable that is set by some of the items holds what the last of them sets. -/
theorem foldl_apply (value : Params → Text) (set? : Item → Option Text)
    (hset : ∀ p item, value (Params.apply p item) = (set? item).getD (value p)) (items : List Item) (p : Params) :
    value (items.foldl Params.apply p) = ((items.filterMap set?).getLast?).getD (value p) := by
  induction items generalizing p with
  | nil => rfl
  | cons item items ih =>
    rw [List.foldl_cons, ih, hset, List.filterMap_cons]
    cases set? item with
    | none => rfl
    | some file =>
      rw [List.getLast?_cons]
      rfl

theorem foldl_apply_isRundom (items : List Item) (p : Params) :
    (items.foldl Params.apply p).isRundom = true ↔ p.isRundom = true ∨ .random ∈ items := by
  induction items generalizing p with
  | nil => simp
  | cons item items ih =>
    rw [List.foldl_cons, ih, List.mem_cons]
    cases item <;> simp [Params.apply]

theorem outOf_eq (items : List Item) : (items.foldl Params.apply .start).out = outOf items :=
  foldl_apply Params.out Item.out? (fun _ item => by cases item <;> rfl) items .start

theorem sourceOf_eq (items : List Item) : (items.foldl Params.apply .start).source = sourceOf items :=
  foldl_apply Params.source Item.source? (fun _ item => by cases item <;> rfl) items .start

/-! ## When the program runs -/

/-- The clients that the program runs with. -/
def Chooses (leftover : ℕ → Client) (generated : List Client) (files : Files) (items : List Item)
    (clients : List Client) : Prop :=
  (.random ∈ items ∧ sourceOf items = [] ∧ clients = generated) ∨
    (.random ∉ items ∧ sourceOf items ≠ [] ∧
      ∃ t, files.read (sourceOf items) = some t ∧ ReadsClients leftover t clients)

variable {leftover : ℕ → Client} {readClients : Text → List Client} {generated clients : List Client}
  {files files' : Files} {argv : List Text} {out : Text}

theorem openOut_iff {p : Params} (chosen : Option (List Client)) :
    openOut files p chosen = (.run clients out, files') ↔
      chosen = some clients ∧ out = p.out ∧ files.canWrite p.out = true ∧ files' = files.truncate p.out := by
  cases chosen with
  | none => exact iff_of_false (fun h => by cases congrArg Prod.fst h) fun h => by cases h.1
  | some clients' =>
    rw [openOut]
    split_ifs with hw
    · constructor
      · intro h
        cases h
        exact ⟨rfl, rfl, hw, rfl⟩
      · rintro ⟨hclients, rfl, -, rfl⟩
        cases hclients
        rfl
    · exact iff_of_false (fun h => by cases congrArg Prod.fst h) fun h => hw h.2.2.1

/-- The command lines that end after the loop. -/
theorem parseArgs_items (hread : ∀ t, ReadsClients leftover t (readClients t)) (items : List Item) :
    parseArgs readClients generated files (items.flatMap Item.words) = (.run clients out, files') ↔
      Chooses leftover generated files items clients ∧ out = outOf items ∧ files.canWrite (outOf items) = true ∧
        files' = files.truncate (outOf items) := by
  have hscan : scanArgs .start (items.flatMap Item.words) = .done (items.foldl Params.apply .start) := by
    have := scanArgs_words items [] .start
    rw [List.append_nil] at this
    rw [this, scanArgs.eq_def]
  have hrandom := foldl_apply_isRundom items .start
  have hbad : ¬ ((badFlags, files) = (Outcome.run clients out, files')) := fun h => by cases congrArg Prod.fst h
  unfold parseArgs
  rw [hscan]
  dsimp only
  rw [sourceOf_eq]
  by_cases hr : Item.random ∈ items
  · rw [hrandom.2 (.inr hr)]
    by_cases hs : sourceOf items = []
    · rw [if_neg (by simp [hs]), openOut_iff, outOf_eq]
      refine and_congr_left' ⟨fun h => ?_, fun h => ?_⟩
      · exact .inl ⟨hr, hs, (Option.some.inj h).symm⟩
      · rcases h with ⟨-, -, rfl⟩ | ⟨hno, -⟩
        · rfl
        · exact absurd hr hno
    · rw [if_pos (by simp [hs])]
      refine iff_of_false hbad fun h => ?_
      rcases h.1 with ⟨-, hnil, -⟩ | ⟨hno, -⟩
      · exact hs hnil
      · exact hno hr
  · rw [Bool.eq_false_iff.2 fun h => (hrandom.1 h).elim Bool.noConfusion hr]
    by_cases hs : sourceOf items = []
    · rw [if_pos (by simp [hs])]
      refine iff_of_false hbad fun h => ?_
      rcases h.1 with ⟨hyes, -⟩ | ⟨-, hne, -⟩
      · exact hr hyes
      · exact hne hs
    · rw [if_neg (by simp [hs]), openOut_iff, outOf_eq]
      refine and_congr_left' ⟨fun h => ?_, fun h => ?_⟩
      · obtain ⟨t, ht, rfl⟩ := Option.map_eq_some_iff.1 h
        exact .inr ⟨hr, hs, t, ht, hread t⟩
      · rcases h with ⟨hyes, -⟩ | ⟨-, -, t, ht, hclients⟩
        · exact absurd hyes hr
        · exact Option.map_eq_some_iff.2 ⟨t, ht, (hread t).unique hclients⟩

/-- **The command lines of the hotel.**  The program runs if and only if the command line
    ends after its last item, with `-r` or with a source that is not empty, but not with both,
    the source can be read, and the file of the last `-o` can be written; that file is emptied
    when the source has been read.  If it does not run, no file is touched. -/
theorem parseArgs_iff (hread : ∀ t, ReadsClients leftover t (readClients t)) :
    (∀ clients out files', parseArgs readClients generated files argv = (.run clients out, files') ↔
      ∃ items, argv = items.flatMap Item.words ∧ Chooses leftover generated files items clients ∧ out = outOf items ∧
        files.canWrite (outOf items) = true ∧ files' = files.truncate (outOf items)) ∧
    ∀ code message files', parseArgs readClients generated files argv = (.exit code message, files') →
      files' = files := by
  refine ⟨fun clients out files' => ⟨fun h => ?_, ?_⟩, ?_⟩
  · obtain ⟨items, rest, rfl, hstops⟩ := exists_items argv
    cases hstops with
    | done =>
      rw [List.append_nil] at h ⊢
      exact ⟨items, rfl, (parseArgs_items hread items).1 h⟩
    | out | source =>
      rw [parseArgs, scanArgs_words, scanArgs.eq_def] at h
      cases congrArg Prod.fst h
    | manual more =>
      rw [parseArgs, scanArgs_words, scanArgs_manual] at h
      cases congrArg Prod.fst h
  · rintro ⟨items, rfl, h⟩
    exact (parseArgs_items hread items).2 h
  · intro code message files' h
    unfold parseArgs at h
    split at h
    · exact (congrArg Prod.snd h).symm
    · exact (congrArg Prod.snd h).symm
    · split_ifs at h
      · exact (congrArg Prod.snd h).symm
      all_goals
        unfold openOut at h
        split at h
        · exact (congrArg Prod.snd h).symm
        · split_ifs at h
          · cases congrArg Prod.fst h
          · exact (congrArg Prod.snd h).symm

/-- A file with two clients, and nothing else. -/
def twoClientsOnly : Files where
  read name := if name = "clients".toList then some (fileText false twoClients) else none
  canWrite name := decide (name = "clients".toList)

/-- The report goes to the file from which the clients are read. -/
theorem parseArgs_iff_sameFile : ∃ readClients,
    parseArgs readClients [] twoClientsOnly (["hotel", "-s", "clients", "-o", "clients"].map String.toList) =
      (.run twoClients "clients".toList, twoClientsOnly.truncate "clients".toList) := by
  let leftover : ℕ → Client := fun _ => ⟨15626636, 5, 1⟩
  refine ⟨fun t => (exists_readsClients leftover t).choose, ?_⟩
  have hread := fun t => (exists_readsClients leftover t).choose_spec
  refine ((parseArgs_iff hread).1 _ _ _).2 ⟨[.other "hotel".toList (by decide), .source "clients".toList,
    .out "clients".toList], rfl, .inr ⟨by simp, by decide, fileText false twoClients, rfl, ?_⟩, rfl, rfl, rfl⟩
  refine readsClients_readBack ?_ leftover false
  intro c hc
  simp only [twoClients, List.mem_cons, List.not_mem_nil, or_false] at hc
  rcases hc with rfl | rfl
  all_goals exact ⟨by decide, by decide, by decide⟩

end Hotel
