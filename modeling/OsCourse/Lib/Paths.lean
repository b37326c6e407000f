/-
  Path names in a tree of directories with symbolic links: to what a name leads, and over how
  many links.
-/
import Mathlib.Logic.Function.Basic
import OsCourse.Lib.Text

namespace Paths

open Text

universe u

/-- What a user may do with a file or a directory. -/
structure Mode where
  read : Bool
  write : Bool
  search : Bool

/-- An entry of a directory; `.` and `..` are entries like others. -/
inductive Entry (δ : Type u)
  | file (m : Mode)
  | dir (d : δ)
  | link (target : Text)

/-- The directories with their entries. -/
abbrev FileTree (δ : Type u) := δ → Text → Option (Entry δ)

/-- What does not change: the root, the modes of the directories and of new files, and how many
    links are followed for one name. -/
structure Host (δ : Type u) where
  root : δ
  mode : δ → Mode
  newMode : Mode
  limit : ℕ

/-- To what a name leads: to a file, to a directory, or to a name that can be given to a new file. -/
inductive Place (δ : Type u)
  | file (m : Mode)
  | dir (d : δ)
  | free (d : δ) (name : Text)

inductive Errno
  | enoent
  | enotdir
  | eisdir
  | eacces
  | eexist
  | eloop

/-- The names between the slashes; a slash at the end stands for a `.` behind it. -/
def components (path : Text) : List Text :=
  (path.splitOn '/').filter (fun name => !name.isEmpty) ++ if path.getLast? = some '/' then [['.']] else []

variable {δ : Type u}

/-- Where a name begins that is used in the directory `d`. -/
def Host.start (S : Host δ) (d : δ) (path : Text) : δ := if path.head? = some '/' then S.root else d

/-- The way along the names, with `follow` for the links. -/
def walkWith (S : Host δ) (t : FileTree δ) (follow : δ → List Text → Except Errno (Place δ)) :
    δ → List Text → Except Errno (Place δ)
  | d, [] => .ok (.dir d)
  | d, name :: rest =>
    if (S.mode d).search = true then
      match t d name with
      | none => if rest = [] then .ok (.free d name) else .error .enoent
      | some (.file m) => if rest = [] then .ok (.file m) else .error .enotdir
      | some (.dir d') => walkWith S t follow d' rest
      | some (.link target) => follow (S.start d target) (components target ++ rest)
    else .error .eacces

/-- The way along the names, over `k` links at most. -/
def walk (S : Host δ) (t : FileTree δ) : ℕ → δ → List Text → Except Errno (Place δ)
  | 0 => walkWith S t fun _ _ => .error .eloop
  | k + 1 => walkWith S t (walk S t k)

/-- The names lead to this place, over `n` links. -/
inductive Resolves (S : Host δ) (t : FileTree δ) : δ → List Text → ℕ → Place δ → Prop
  | here (d : δ) : Resolves S t d [] 0 (.dir d)
  | free {d : δ} {name : Text} (hd : (S.mode d).search = true) (h : t d name = none) :
    Resolves S t d [name] 0 (.free d name)
  | file {d : δ} {name : Text} {m : Mode} (hd : (S.mode d).search = true) (h : t d name = some (.file m)) :
    Resolves S t d [name] 0 (.file m)
  | dir {d d' : δ} {name : Text} {rest : List Text} {n : ℕ} {p : Place δ} (hd : (S.mode d).search = true)
    (h : t d name = some (.dir d')) (hr : Resolves S t d' rest n p) : Resolves S t d (name :: rest) n p
  | link {d : δ} {name target : Text} {rest : List Text} {n : ℕ} {p : Place δ} (hd : (S.mode d).search = true)
    (h : t d name = some (.link target)) (hr : Resolves S t (S.start d target) (components target ++ rest) n p) :
    Resolves S t d (name :: rest) (n + 1) p

/-- One more entry. -/
def FileTree.set [DecidableEq δ] (t : FileTree δ) (d : δ) (name : Text) (e : Entry δ) : FileTree δ :=
  Function.update t d (Function.update (t d) name (some e))

variable {S : Host δ} {t t' : FileTree δ} {d d' : δ} {name path : Text} {names : List Text} {n n' k : ℕ}
  {p p' : Place δ} {m : Mode}

theorem components_of_notMem (hne : path ≠ []) (h : '/' ∉ path) : components path = [path] := by
  have hlast : path.getLast? ≠ some '/' := fun heq => h (List.mem_of_getLast? heq)
  rw [components, List.splitOn_eq_singleton h, if_neg hlast, List.append_nil]
  refine List.filter_eq_self.2 fun x hx => ?_
  rw [List.mem_singleton.1 hx]
  cases path with
  | nil => exact absurd rfl hne
  | cons => rfl

theorem start_of_notMem (S : Host δ) (d : δ) (h : '/' ∉ path) : S.start d path = d :=
  if_neg fun heq => h (List.mem_of_head? heq)

theorem Resolves.search (h : Resolves S t d (name :: names) n p) : (S.mode d).search = true := by
  cases h <;> assumption

/-! ## Ways -/

/-- **A way of `n` links** is found exactly if so many links are followed. -/
theorem Resolves.walk_eq (h : Resolves S t d names n p) (k : ℕ) :
    walk S t k d names = if n ≤ k then .ok p else .error .eloop := by
  induction h generalizing k with
  | here => cases k <;> rfl
  | free hd h | file hd h =>
    cases k <;>
      · rw [walk, walkWith, if_pos hd, h]
        rfl
  | dir hd h _ ih =>
    rw [← ih]
    cases k <;>
      · rw [walk, walkWith, if_pos hd, h]
  | link hd h _ ih =>
    cases k with
    | zero =>
      rw [walk, walkWith, if_pos hd, h]
      rfl
    | succ k =>
      rw [walk, walkWith, if_pos hd, h]
      dsimp only
      rw [ih]
      exact if_congr Nat.succ_le_succ_iff.symm rfl rfl

/-- With `follow` for the ways of less than `n` links, the ways of at most `n` are found. -/
theorem resolves_of_walkWith {follow : δ → List Text → Except Errno (Place δ)} {n : ℕ}
    (hfollow : ∀ d names p, follow d names = .ok p → ∃ k < n, Resolves S t d names k p)
    (h : walkWith S t follow d names = .ok p) : ∃ k ≤ n, Resolves S t d names k p := by
  induction names generalizing d with
  | nil =>
    cases h
    exact ⟨0, Nat.zero_le _, .here d⟩
  | cons name rest ih =>
    rw [walkWith] at h
    by_cases hd : (S.mode d).search = true
    case neg =>
      rw [if_neg hd] at h
      cases h
    rw [if_pos hd] at h
    split at h
    case h_1 hname =>
      split_ifs at h with hrest
      subst hrest
      cases h
      exact ⟨0, Nat.zero_le _, .free hd hname⟩
    case h_2 m hname =>
      split_ifs at h with hrest
      subst hrest
      cases h
      exact ⟨0, Nat.zero_le _, .file hd hname⟩
    case h_3 d' hname =>
      obtain ⟨k, hk, hr⟩ := ih h
      exact ⟨k, hk, .dir hd hname hr⟩
    case h_4 target hname =>
      obtain ⟨k, hk, hr⟩ := hfollow _ _ _ h
      exact ⟨k + 1, hk, .link hd hname hr⟩

theorem resolves_of_walk (h : walk S t k d names = .ok p) : ∃ n ≤ k, Resolves S t d names n p := by
  induction k generalizing d names p with
  | zero =>
    refine resolves_of_walkWith (fun d names p h => ?_) h
    cases h
  | succ k ih =>
    refine resolves_of_walkWith (fun d names p h => ?_) h
    obtain ⟨n, hn, hr⟩ := ih h
    exact ⟨n, Nat.lt_succ_of_le hn, hr⟩

/-- There is one way at most. -/
theorem Resolves.unique (h : Resolves S t d names n p) (h' : Resolves S t d names n' p') : n = n' ∧ p = p' := by
  have hle : ∀ {n n' : ℕ} {p p' : Place δ}, Resolves S t d names n p → Resolves S t d names n' p' → n' ≤ n := by
    intro n n' p p' h h'
    by_contra hlt
    have heq := (h.walk_eq n).symm.trans (h'.walk_eq n)
    rw [if_pos (Nat.le_refl n), if_neg hlt] at heq
    cases heq
  obtain rfl : n = n' := Nat.le_antisymm (hle h' h) (hle h h')
  have heq := (h.walk_eq n).symm.trans (h'.walk_eq n)
  rw [if_pos (Nat.le_refl n), if_pos (Nat.le_refl n)] at heq
  exact ⟨rfl, Except.ok.inj heq⟩

/-! ## New entries -/

/-- A way to something is still there when there are more entries. -/
theorem Resolves.mono (h : Resolves S t d names n p) (hp : ∀ e x, p ≠ .free e x)
    (hkeep : ∀ e x, t e x ≠ none → t' e x = t e x) : Resolves S t' d names n p := by
  have hentry : ∀ {e x y}, t e x = some y → t' e x = some y := by
    intro e x y hx
    rw [hkeep e x (by rw [hx]; exact Option.some_ne_none y), hx]
  induction h with
  | here d => exact .here d
  | free => exact absurd rfl (hp _ _)
  | file hd h => exact .file hd (hentry h)
  | dir hd h _ ih => exact .dir hd (hentry h) (ih hp)
  | link hd h _ ih => exact .link hd (hentry h) (ih hp)

section
variable [DecidableEq δ] {e : Entry δ}

@[simp] theorem FileTree.set_self (t : FileTree δ) (d : δ) (name : Text) (e : Entry δ) :
    t.set d name e d name = some e := by
  rw [FileTree.set, Function.update_self, Function.update_self]

theorem FileTree.set_of_ne {x : Text} (hx : x ≠ name) : t.set d name e d x = t d x := by
  rw [FileTree.set, Function.update_self, Function.update_of_ne hx]

/-- The other entries are as they have been. -/
theorem FileTree.set_of_none (h : t d name = none) {x : Text} (hx : t d' x ≠ none) :
    t.set d name e d' x = t d' x := by
  unfold FileTree.set
  by_cases hd : d' = d
  · subst hd
    rw [Function.update_self, Function.update_of_ne]
    rintro rfl
    exact hx h
  · rw [Function.update_of_ne hd]

/-- The way to a name that is free leads to the file that gets it. -/
theorem Resolves.create (h : Resolves S t d names n (.free d' name)) (m : Mode) :
    Resolves S (t.set d' name (.file m)) d names n (.file m) := by
  obtain ⟨q, hq⟩ : ∃ q : Place δ, q = .free d' name := ⟨_, rfl⟩
  rw [← hq] at h
  have hnone : t d' name = none := by
    clear m
    induction h with
    | free _ h =>
      cases hq
      exact h
    | here | file => cases hq
    | dir _ _ _ ih | link _ _ _ ih => exact ih hq
  have hentry : ∀ {e x y}, t e x = some y → t.set d' name (.file m) e x = some y := by
    intro e x y hx
    rw [FileTree.set_of_none hnone (by rw [hx]; exact Option.some_ne_none y), hx]
  induction h with
  | free hd _ =>
    cases hq
    exact .file hd (FileTree.set_self ..)
  | here | file => cases hq
  | dir hd h _ ih => exact .dir hd (hentry h) (ih hq)
  | link hd h _ ih => exact .link hd (hentry h) (ih hq)

end

end Paths
