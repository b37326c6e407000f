/-
  The recursion limit (dzpredlast): links to links are made until one cannot be opened.
-/
import OsCourse.Lib.Paths
import OsCourse.Lib.While

namespace Threshold

open Text While Paths

universe u
variable {δ : Type u}

/-! ## The system calls -/

/-- `open` for reading in the directory `cwd`. -/
def openRead (S : Host δ) (t : FileTree δ) (cwd : δ) (path : Text) : Except Errno Unit :=
  match walk S t S.limit (S.start cwd path) (components path) with
  | .error e => .error e
  | .ok (.free _ _) => .error .enoent
  | .ok (.file m) => if m.read = true then .ok () else .error .eacces
  | .ok (.dir d) => if (S.mode d).read = true then .ok () else .error .eacces

section
variable [DecidableEq δ]

/-- `fopen` with `"w"`, which makes the file if there is none. -/
def fopenWrite (S : Host δ) (t : FileTree δ) (cwd : δ) (path : Text) : Except Errno (FileTree δ) :=
  match walk S t S.limit (S.start cwd path) (components path) with
  | .error e => .error e
  | .ok (.free d name) => if (S.mode d).write = true then .ok (t.set d name (.file S.newMode)) else .error .eacces
  | .ok (.file m) => if m.write = true then .ok t else .error .eacces
  | .ok (.dir _) => .error .eisdir

/-- `symlink` with a name without `/`. -/
def symlink (S : Host δ) (t : FileTree δ) (cwd : δ) (target name : Text) : Except Errno (FileTree δ) :=
  if (S.mode cwd).search = true then
    match t cwd name with
    | some _ => .error .eexist
    | none => if (S.mode cwd).write = true then .ok (t.set cwd name (.link target)) else .error .eacces
  else .error .eacces

end

/-! ## The program -/

def test : Text := ['t', 'e', 's', 't']

/-- What ends the program: the limit, a call that fails, or `depth + 1` too large for an `int`. -/
inductive Result
  | limit (depth : ℕ)
  | fopen
  | symlink
  | open
  | overflow
  deriving DecidableEq

structure State (δ : Type u) where
  depth : ℕ
  prevLink : Text
  tree : FileTree δ

/-- `snprintf` into 32 bytes -/
def newLink (depth : ℕ) : Text := (test ++ fmtInt ((depth + 1 : ℕ) : ℤ)).take 31

section
variable [DecidableEq δ]

/-- A round of the loop. -/
def round (S : Host δ) (cwd : δ) (s : State δ) : State δ ⊕ (Result × FileTree δ) :=
  if 2 ^ 31 ≤ s.depth + 1 then .inr (.overflow, s.tree)
  else
    match symlink S s.tree cwd s.prevLink (newLink s.depth) with
    | .error _ => .inr (.symlink, s.tree)
    | .ok tree =>
      match openRead S tree cwd (newLink s.depth) with
      | .error .eloop => .inr (.limit s.depth, tree)
      | .error _ => .inr (.open, tree)
      | .ok _ => .inl { depth := s.depth + 1, prevLink := newLink s.depth, tree := tree }

/-- `main` ends so, and leaves this tree. -/
def Ends (S : Host δ) (cwd : δ) (t : FileTree δ) (r : Result × FileTree δ) : Prop :=
  match fopenWrite S t cwd test with
  | .error _ => r = (.fopen, t)
  | .ok tree => Returns (round S cwd) { depth := 0, prevLink := test, tree := tree } r

end

/-! ## The names -/

/-- `test`, `test1`, `test2`, ... -/
def linkName : ℕ → Text
  | 0 => test
  | j + 1 => test ++ fmtInt ((j + 1 : ℕ) : ℤ)

variable {S : Host δ} {t t' : FileTree δ} {cwd : δ} {m : Mode} {c j k : ℕ}

theorem newLink_eq (h : j + 1 < 2 ^ 31) : newLink j = linkName (j + 1) := by
  refine List.take_of_length_le ?_
  have hdigits : (fmtInt ((j + 1 : ℕ) : ℤ)).length ≤ 11 := by
    refine length_fmtInt_le (by decide) ?_
    rw [Int.natAbs_natCast]
    exact Nat.lt_trans h (by decide)
  rw [List.length_append]
  exact Nat.add_le_add (Nat.le_refl 4) (Nat.le_trans hdigits (by decide : 11 ≤ 27))

theorem linkName_succ_inj {i : ℕ} : linkName (i + 1) = linkName (j + 1) ↔ i = j := by
  constructor
  · intro h
    have hcast := fmtInt_injective (List.append_cancel_left h)
    omega
  · rintro rfl
    rfl

theorem slash_notMem_linkName (j : ℕ) : '/' ∉ linkName j := by
  have htest : '/' ∉ test := by decide
  cases j with
  | zero => exact htest
  | succ j =>
    intro hmem
    rcases List.mem_append.1 hmem with h | h
    · exact htest h
    · rcases mem_fmtInt h with h | h
      · exact absurd h (by decide)
      · exact absurd h (by decide)

/-- The names of the program are looked up in the directory itself. -/
theorem components_linkName (S : Host δ) (cwd : δ) (j : ℕ) :
    S.start cwd (linkName j) = cwd ∧ components (linkName j) = [linkName j] := by
  have hslash := slash_notMem_linkName j
  refine ⟨start_of_notMem S cwd hslash, components_of_notMem ?_ hslash⟩
  cases j <;> exact List.cons_ne_nil _ _

/-- Where `test<j>` leads, over `n` links. -/
abbrev LeadsTo (S : Host δ) (t : FileTree δ) (cwd : δ) (j n : ℕ) (p : Place δ) : Prop :=
  Resolves S t cwd [linkName j] n p

/-- A name that leads to a file over `c` links is opened or not. -/
theorem openRead_eq {n : ℕ} (h : LeadsTo S t cwd j n (.file m)) :
    openRead S t cwd (linkName j) = if n ≤ S.limit then
      (if m.read = true then .ok () else .error .eacces) else .error .eloop := by
  obtain ⟨hstart, hcomponents⟩ := components_linkName S cwd j
  rw [openRead, hstart, hcomponents, h.walk_eq]
  by_cases hle : n ≤ S.limit
  · rw [if_pos hle, if_pos hle]
  · rw [if_neg hle, if_neg hle]

section
variable [DecidableEq δ]

/-- What `fopen` leaves: `test` leads to a file, which need not be readable. -/
theorem fopenWrite_ok (h : fopenWrite S t cwd test = .ok t') :
    ∃ c ≤ S.limit, ∃ m, LeadsTo S t' cwd 0 c (.file m) := by
  obtain ⟨hstart, hcomponents⟩ := components_linkName S cwd 0
  have hstart : S.start cwd test = cwd := hstart
  have hcomponents : components test = [test] := hcomponents
  rw [fopenWrite, hstart, hcomponents] at h
  split at h
  case h_1 => cases h
  case h_2 d name hwalk =>
    split_ifs at h
    cases h
    obtain ⟨c, hc, hr⟩ := resolves_of_walk hwalk
    exact ⟨c, hc, _, hr.create _⟩
  case h_3 m hwalk =>
    split_ifs at h
    cases h
    obtain ⟨c, hc, hr⟩ := resolves_of_walk hwalk
    exact ⟨c, hc, m, hr⟩
  case h_4 => cases h

/-! ## The loop -/

/-- The tree after `j` rounds. -/
def addLinks (t : FileTree δ) (cwd : δ) : ℕ → FileTree δ
  | 0 => t
  | j + 1 => (addLinks t cwd j).set cwd (linkName (j + 1)) (.link (linkName j))

/-- The state after `j` rounds. -/
def after (t : FileTree δ) (cwd : δ) (j : ℕ) : State δ := ⟨j, linkName j, addLinks t cwd j⟩

/-- A link that has not been made yet. -/
theorem addLinks_of_le {i : ℕ} (h : j ≤ i) : addLinks t cwd j cwd (linkName (i + 1)) = t cwd (linkName (i + 1)) := by
  induction j with
  | zero => rfl
  | succ j ih =>
    rw [addLinks, FileTree.set_of_ne, ih (Nat.le_of_succ_le h)]
    exact mt linkName_succ_inj.1 (Nat.ne_of_gt h)

/-- The name of link `j + 1` is not in use. -/
def Free (t : FileTree δ) (cwd : δ) (j : ℕ) : Prop := t cwd (linkName (j + 1)) = none

theorem leadsTo_addLinks (h : LeadsTo S t cwd 0 c (.file m)) (hfree : ∀ i < j, Free t cwd i) :
    LeadsTo S (addLinks t cwd j) cwd j (c + j) (.file m) := by
  induction j with
  | zero => exact h
  | succ j ih =>
    have hr := ih fun i hi => hfree i (Nat.lt_succ_of_lt hi)
    have hnone : addLinks t cwd j cwd (linkName (j + 1)) = none :=
      (addLinks_of_le (Nat.le_refl j)).trans (hfree j (Nat.lt_succ_self j))
    obtain ⟨hstart, hcomponents⟩ := components_linkName S cwd j
    refine .link h.search (FileTree.set_self ..) ?_
    rw [hstart, hcomponents]
    exact hr.mono (fun _ _ => nofun) fun _ _ => FileTree.set_of_none hnone

/-- The next link cannot be made. -/
theorem round_of_not (hj : j + 1 < 2 ^ 31) (h : ¬ ((S.mode cwd).write = true ∧ Free t cwd j)) :
    round S cwd (after t cwd j) = .inr (.symlink, addLinks t cwd j) := by
  have hfails : ∃ e, symlink S (addLinks t cwd j) cwd (linkName j) (linkName (j + 1)) = .error e := by
    rw [symlink, addLinks_of_le (Nat.le_refl j)]
    by_cases hsearch : (S.mode cwd).search = true
    · rw [if_pos hsearch]
      cases hname : t cwd (linkName (j + 1)) with
      | some => exact ⟨_, rfl⟩
      | none =>
        have hwrite : ¬ (S.mode cwd).write = true := fun hwrite => h ⟨hwrite, hname⟩
        exact ⟨_, if_neg hwrite⟩
    · exact ⟨_, if_neg hsearch⟩
  obtain ⟨e, he⟩ := hfails
  rw [round, if_neg (show ¬ 2 ^ 31 ≤ (after t cwd j).depth + 1 from Nat.not_le.2 hj)]
  simp only [after, newLink_eq hj, he]

/-- A link is made, and opened. -/
theorem round_of_free (hj : j + 1 < 2 ^ 31) (h : LeadsTo S t cwd 0 c (.file m)) (hwrite : (S.mode cwd).write = true)
    (hfree : ∀ i < j + 1, Free t cwd i) :
    round S cwd (after t cwd j) = if c + (j + 1) ≤ S.limit then
      (if m.read = true then .inl (after t cwd (j + 1)) else .inr (.open, addLinks t cwd (j + 1)))
      else .inr (.limit j, addLinks t cwd (j + 1)) := by
  have hopen := openRead_eq (leadsTo_addLinks h hfree)
  have hnone : addLinks t cwd j cwd (linkName (j + 1)) = none :=
    (addLinks_of_le (Nat.le_refl j)).trans (hfree j (Nat.lt_succ_self j))
  have hlink : symlink S (addLinks t cwd j) cwd (linkName j) (linkName (j + 1)) = .ok (addLinks t cwd (j + 1)) := by
    rw [symlink, if_pos h.search, hnone]
    exact if_pos hwrite
  rw [round, if_neg (show ¬ 2 ^ 31 ≤ (after t cwd j).depth + 1 from Nat.not_le.2 hj)]
  simp only [after, newLink_eq hj, hlink, hopen]
  split_ifs <;> rfl

/-- How many links can be opened: none, if the file cannot be read. -/
def openable (S : Host δ) (m : Mode) (c : ℕ) : ℕ := if m.read = true then S.limit - c else 0

/-- What the program comes to when it can make all links that it needs. -/
def final (S : Host δ) (m : Mode) (c : ℕ) : Result :=
  if m.read = true ∨ c = S.limit then .limit (S.limit - c) else .open

/-- Link `j + 1` can be made. -/
def CanLink (S : Host δ) (t : FileTree δ) (cwd : δ) (j : ℕ) : Prop := (S.mode cwd).write = true ∧ Free t cwd j

omit [DecidableEq δ] in
theorem openable_le (S : Host δ) (m : Mode) (c : ℕ) : openable S m c ≤ S.limit - c := by
  unfold openable
  split_ifs
  · exact Nat.le_refl _
  · exact Nat.zero_le _

/-- A link that can be opened, if it can be made. -/
theorem round_of_lt (hlimit : S.limit + 1 < 2 ^ 31) (h : LeadsTo S t cwd 0 c (.file m)) (hj : j < openable S m c)
    (hfree : ∀ i < j, Free t cwd i) :
    (CanLink S t cwd j ∧ round S cwd (after t cwd j) = .inl (after t cwd (j + 1))) ∨
    (¬ CanLink S t cwd j ∧ round S cwd (after t cwd j) = .inr (.symlink, addLinks t cwd j)) := by
  have hle := openable_le S m c
  by_cases hcan : CanLink S t cwd j
  · have hread : m.read = true := by
      by_contra hread
      rw [openable, if_neg hread] at hj
      exact absurd hj (Nat.not_lt_zero j)
    have hmade := round_of_free (by omega) h hcan.1 (Nat.forall_lt_succ_right.2 ⟨hfree, hcan.2⟩)
    rw [if_pos (show c + (j + 1) ≤ S.limit by omega), if_pos hread] at hmade
    exact .inl ⟨hcan, hmade⟩
  · exact .inr ⟨hcan, round_of_not (by omega) hcan⟩

/-- The link that is one too many. -/
theorem round_last (hlimit : S.limit + 1 < 2 ^ 31) (h : LeadsTo S t cwd 0 c (.file m)) (hc : c ≤ S.limit)
    (hcan : CanLink S t cwd (openable S m c)) (hfree : ∀ i < openable S m c, Free t cwd i) :
    round S cwd (after t cwd (openable S m c)) = .inr (final S m c, addLinks t cwd (openable S m c + 1)) := by
  have hle := openable_le S m c
  rw [round_of_free (by omega) h hcan.1 (Nat.forall_lt_succ_right.2 ⟨hfree, hcan.2⟩)]
  unfold openable final
  by_cases hread : m.read = true
  · rw [if_pos hread, if_pos (Or.inl hread), if_neg (by omega)]
  · rw [if_neg hread, if_neg hread]
    by_cases hlast : c = S.limit
    · rw [if_pos (Or.inr hlast), if_neg (by omega), Nat.sub_eq_zero_of_le hlast.ge]
    · have hlt : c + (0 + 1) ≤ S.limit := by omega
      rw [if_pos hlt, if_neg (not_or.2 ⟨hread, hlast⟩)]

/-- **How the loop ends**: at the link that is one too many, or at the first that cannot be made. -/
theorem loop_returns (hlimit : S.limit + 1 < 2 ^ 31) (h : LeadsTo S t cwd 0 c (.file m)) (hc : c ≤ S.limit) :
    (Returns (round S cwd) (after t cwd 0) (final S m c, addLinks t cwd (openable S m c + 1)) ∧
      ∀ i < openable S m c + 1, CanLink S t cwd i) ∨
    ∃ i < openable S m c + 1, Returns (round S cwd) (after t cwd 0) (.symlink, addLinks t cwd i) ∧
      ¬ CanLink S t cwd i := by
  have hle := openable_le S m c
  -- before round `i` the links up to there have been made
  have hround : ∀ i s, i < openable S m c → (s = after t cwd i ∧ ∀ j < i, Free t cwd j) →
      (CanLink S t cwd (i + 1 - 1) ∧ ∃ s', round S cwd s = .inl s' ∧ s' = after t cwd (i + 1) ∧
        ∀ j < i + 1, Free t cwd j) ∨
        (¬ CanLink S t cwd (i + 1 - 1) ∧ round S cwd s = .inr (.symlink, addLinks t cwd i)) := by
    rintro i s hi ⟨rfl, hfree⟩
    rw [Nat.add_sub_cancel]
    rcases round_of_lt hlimit h hi hfree with ⟨hcan, hmade⟩ | hnot
    · exact .inl ⟨hcan, _, hmade, rfl, Nat.forall_lt_succ_right.2 ⟨hfree, hcan.2⟩⟩
    · exact .inr hnot
  have hstart : after t cwd 0 = after t cwd 0 ∧ ∀ j < 0, Free t cwd j :=
    ⟨rfl, fun j hj => absurd hj (Nat.not_lt_zero j)⟩
  by_cases hlast : CanLink S t cwd (openable S m c)
  · have hdone : ∀ s, (s = after t cwd (openable S m c) ∧ ∀ j < openable S m c, Free t cwd j) →
        round S cwd s = .inr (final S m c, addLinks t cwd (openable S m c + 1)) := by
      rintro s ⟨rfl, hfree⟩
      exact round_last hlimit h hc hlast hfree
    rcases returns_of_tests (P := fun i => CanLink S t cwd (i - 1)) hround hdone hstart (Nat.zero_le _) with
      ⟨hret, hall⟩ | ⟨i, hi, hret, hnot, -⟩
    · exact .inl ⟨hret, Nat.forall_lt_succ_right.2 ⟨fun i hi => hall (i + 1) (Nat.succ_pos i) hi, hlast⟩⟩
    · exact .inr ⟨i, Nat.lt_succ_of_lt hi, hret, hnot⟩
  · have hdone : ∀ s, (s = after t cwd (openable S m c) ∧ ∀ j < openable S m c, Free t cwd j) →
        round S cwd s = .inr (.symlink, addLinks t cwd (openable S m c)) := by
      rintro s ⟨rfl, -⟩
      exact round_of_not (by omega) hlast
    rcases returns_of_tests (P := fun i => CanLink S t cwd (i - 1)) hround hdone hstart (Nat.zero_le _) with
      ⟨hret, -⟩ | ⟨i, hi, hret, hnot, -⟩
    · exact .inr ⟨_, Nat.lt_succ_self _, hret, hlast⟩
    · exact .inr ⟨i, Nat.lt_succ_of_lt hi, hret, hnot⟩

/-- **The limit that is printed.**  When `test` has been opened, it leads to a file over `c`
    links.  The program prints `limit - c` exactly if the names `test1` to `test<limit - c + 1>`
    are free in a directory that can be written, and the file can be read (or no link can be
    followed any more).  Otherwise it ends at `open`, or at the first link that cannot be made. -/
theorem limit_iff (hlimit : S.limit + 1 < 2 ^ 31) {t₁ : FileTree δ} (hopen : fopenWrite S t cwd test = .ok t₁) :
    ∃ c ≤ S.limit, ∃ m, LeadsTo S t₁ cwd 0 c (.file m) ∧
      (∀ k, (∃ t', Ends S cwd t (.limit k, t')) ↔ k = S.limit - c ∧ (m.read = true ∨ c = S.limit) ∧
        ∀ i < k + 1, CanLink S t₁ cwd i) ∧
      ((∃ t', Ends S cwd t (.open, t')) ↔ m.read = false ∧ c < S.limit ∧ CanLink S t₁ cwd 0) ∧
      ((∃ t', Ends S cwd t (.symlink, t')) ↔ ∃ i < openable S m c + 1, ¬ CanLink S t₁ cwd i) := by
  obtain ⟨c, hc, m, hr⟩ := fopenWrite_ok hopen
  have hends : ∀ r, Ends S cwd t r ↔ Returns (round S cwd) (after t₁ cwd 0) r := by
    intro r
    rw [Ends, hopen]
    rfl
  refine ⟨c, hc, m, hr, ?_⟩
  simp only [hends]
  have hopenable : m.read = true ∨ c = S.limit → openable S m c = S.limit - c := by
    intro h
    unfold openable
    split_ifs with hread
    · rfl
    · rw [h.resolve_left hread, Nat.sub_self]
  rcases loop_returns hlimit hr hc with ⟨hret, hall⟩ | ⟨i, hi, hret, hnot⟩
  · unfold final at hret
    have hnolink : ¬ ∃ i < openable S m c + 1, ¬ CanLink S t₁ cwd i := fun ⟨i, hi, hnot⟩ => hnot (hall i hi)
    by_cases hfinal : m.read = true ∨ c = S.limit
    · rw [if_pos hfinal] at hret
      refine ⟨fun k => ⟨?_, ?_⟩, iff_of_false ?_ ?_, iff_of_false ?_ hnolink⟩
      · rintro ⟨t', hret'⟩
        cases hret'.unique hret
        rw [hopenable hfinal] at hall
        exact ⟨rfl, hfinal, hall⟩
      · rintro ⟨rfl, -, -⟩
        exact ⟨_, hret⟩
      · rintro ⟨t', hret'⟩
        cases hret'.unique hret
      · rintro ⟨hread, hlt, -⟩
        rcases hfinal with h | h
        · rw [hread] at h
          cases h
        · exact absurd h (Nat.ne_of_lt hlt)
      · rintro ⟨t', hret'⟩
        cases hret'.unique hret
    · rw [if_neg hfinal] at hret
      obtain ⟨hread, hlast⟩ := not_or.1 hfinal
      refine ⟨fun k => iff_of_false ?_ ?_, iff_of_true ⟨_, hret⟩ ?_, iff_of_false ?_ hnolink⟩
      · rintro ⟨t', hret'⟩
        cases hret'.unique hret
      · rintro ⟨-, h, -⟩
        exact hfinal h
      · exact ⟨Bool.eq_false_iff.2 hread, Nat.lt_of_le_of_ne hc hlast, hall 0 (Nat.succ_pos _)⟩
      · rintro ⟨t', hret'⟩
        cases hret'.unique hret
  · refine ⟨fun k => iff_of_false ?_ ?_, iff_of_false ?_ ?_, iff_of_true ⟨_, hret⟩ ⟨i, hi, hnot⟩⟩
    · rintro ⟨t', hret'⟩
      cases hret'.unique hret
    · rintro ⟨rfl, h, hall⟩
      rw [hopenable h] at hi
      exact hnot (hall i hi)
    · rintro ⟨t', hret'⟩
      cases hret'.unique hret
    · rintro ⟨hread, -, hcan⟩
      unfold openable at hi
      rw [if_neg (by simp [hread])] at hi
      obtain rfl : i = 0 := by omega
      exact hnot hcan

end

/-- `test` is a link to a file beside it. -/
def treeOfData : FileTree Unit := fun _ name =>
  if name = ['.'] then some (.dir ())
  else if name = test then some (.link ['.', '/', 'd', 'a', 't', 'a'])
  else if name = ['d', 'a', 't', 'a'] then some (.file ⟨true, true, false⟩)
  else none

def hostOfData : Host Unit := ⟨(), fun _ => ⟨true, true, true⟩, ⟨true, true, false⟩, 40⟩

theorem limit_iff_data : ∃ t', Ends hostOfData () treeOfData (.limit 39, t') := by
  obtain ⟨c, -, m, hr, hprints, -⟩ :=
    @limit_iff Unit hostOfData treeOfData () _ (by decide) treeOfData (by rfl)
  have hway : LeadsTo hostOfData treeOfData () 0 1 (.file ⟨true, true, false⟩) :=
    .link rfl rfl (.dir rfl rfl (.file rfl rfl))
  obtain ⟨rfl, hm⟩ := hr.unique hway
  cases hm
  have hname : ∀ i, ∃ x xs, linkName (i + 1) = 't' :: 'e' :: 's' :: 't' :: x :: xs := by
    intro i
    obtain ⟨x, xs, hcons, -⟩ := fmtInt_cons ((i + 1 : ℕ) : ℤ)
    exact ⟨x, xs, congrArg (test ++ ·) hcons⟩
  refine (hprints 39).2 ⟨rfl, .inl rfl, fun i _ => ⟨rfl, ?_⟩⟩
  obtain ⟨x, xs, heq⟩ := hname i
  rw [Free, heq]
  simp [treeOfData, test]

end Threshold
