/-
  Bytes in memory: storing and loading, `memchr`, and the string at an address.
-/
import OsCourse.Lib.Text

open Text

/-- The byte at every address. -/
abbrev Mem := ℕ → Char

namespace Mem

variable {m m' : Mem} {a n k i : ℕ} {t u : Text} {c : Char}

/-- The bytes `t` are stored from the address `a` on. -/
def store (m : Mem) (a : ℕ) (t : Text) : Mem := fun i => if a ≤ i then (t[i - a]?).getD (m i) else m i

/-- The `n` bytes from the address `a` on. -/
def load (m : Mem) (a n : ℕ) : Text := (List.range n).map fun i => m (a + i)

/-- `memchr`: the first of the `n` addresses from `a` on that has the byte `c`. -/
def memchr (m : Mem) (c : Char) (a n : ℕ) : Option ℕ := (List.range' a n).find? fun i => m i == c

/-- The string at the address `a`, which a NUL ends. -/
def StringAt (m : Mem) (a : ℕ) (t : Text) : Prop := nul ∉ t ∧ m.load a (t.length + 1) = t ++ [nul]

instance (m : Mem) (a : ℕ) (t : Text) : Decidable (m.StringAt a t) := inferInstanceAs (Decidable (_ ∧ _))

/-! ## Storing and loading -/

theorem store_of_lt (h : i < a) : m.store a t i = m i := if_neg (by omega)

theorem store_add (h : t[i]? = some c) : m.store a t (a + i) = c := by
  rw [store, if_pos (Nat.le_add_right a i), Nat.add_sub_cancel_left, h]
  rfl

theorem store_of_ge (h : a + t.length ≤ i) : m.store a t i = m i := by
  rw [store, if_pos (by omega), List.getElem?_eq_none (by omega)]
  rfl

@[simp] theorem length_load : (m.load a n).length = n := by simp [load]

theorem getElem?_load (h : i < n) : (m.load a n)[i]? = some (m (a + i)) := by simp [load, h]

theorem mem_load_iff : c ∈ m.load a n ↔ ∃ i, a ≤ i ∧ i < a + n ∧ m i = c := by
  simp only [load, List.mem_map, List.mem_range]
  constructor
  · rintro ⟨i, hi, hc⟩
    exact ⟨a + i, by omega, by omega, hc⟩
  · rintro ⟨i, hi, hn, hc⟩
    exact ⟨i - a, by omega, by rwa [Nat.add_sub_cancel' hi]⟩

theorem load_add (m : Mem) (a n k : ℕ) : m.load a (n + k) = m.load a n ++ m.load (a + n) k := by
  rw [load, List.range_add, List.map_append, List.map_map, load, load]
  simp only [Function.comp_def, Nat.add_assoc]

theorem load_congr (h : ∀ i, a ≤ i → i < a + n → m i = m' i) : m.load a n = m'.load a n := by
  refine List.map_congr_left fun i hi => h (a + i) (Nat.le_add_right a i) ?_
  have := List.mem_range.1 hi
  omega

/-- What has been stored is loaded. -/
theorem load_store (m : Mem) (a : ℕ) (t : Text) : (m.store a t).load a t.length = t := by
  refine List.ext_getElem? fun i => ?_
  by_cases hi : i < t.length
  · rw [getElem?_load hi, store_add (List.getElem?_eq_getElem hi), List.getElem?_eq_getElem hi]
  · rw [List.getElem?_eq_none (by simp; omega), List.getElem?_eq_none (by omega)]

/-- The bytes in front stay. -/
theorem load_store_of_le (h : k + n ≤ a) : (m.store a t).load k n = m.load k n :=
  load_congr fun _ _ hi => store_of_lt (by omega)

/-- The bytes behind stay. -/
theorem load_store_of_ge (h : a + t.length ≤ k) : (m.store a t).load k n = m.load k n :=
  load_congr fun _ hi _ => store_of_ge (by omega)

theorem store_ne (hm : ∀ i, m i ≠ c) (ht : c ∉ t) (i : ℕ) : m.store a t i ≠ c := by
  unfold store
  split_ifs
  · cases h : t[i - a]? with
    | none => exact hm i
    | some d =>
      rintro rfl
      exact ht (List.mem_of_getElem? h)
  · exact hm i

theorem notMem_load (hm : ∀ i, m i ≠ c) : c ∉ m.load a n := by
  intro h
  obtain ⟨i, -, hi⟩ := List.mem_map.1 h
  exact hm _ hi

/-! ## Searching -/

theorem memchr_eq_none_iff : m.memchr c a n = none ↔ c ∉ m.load a n := by
  simp only [memchr, load, List.find?_eq_none, List.mem_range'_1, List.mem_map, List.mem_range, beq_iff_eq]
  constructor
  · rintro h ⟨i, hi, hc⟩
    exact h (a + i) (by omega) hc
  · intro h i hi hc
    exact h ⟨i - a, by omega, by rwa [Nat.add_sub_cancel' hi.1]⟩

theorem memchr_eq_some_iff : m.memchr c a n = some i ↔
    a ≤ i ∧ i < a + n ∧ m i = c ∧ ∀ j, a ≤ j → j < i → m j ≠ c := by
  rw [memchr, List.find?_range'_eq_some]
  simp only [beq_iff_eq, List.mem_range'_1, Bool.not_eq_true', beq_eq_false_iff_ne]
  constructor
  · rintro ⟨hc, ⟨ha, hn⟩, hfirst⟩
    exact ⟨ha, hn, hc, hfirst⟩
  · rintro ⟨ha, hn, hc, hfirst⟩
    exact ⟨hc, ⟨ha, hn⟩, hfirst⟩

/-- The first `c` among the bytes. -/
theorem memchr_of_load (h : m.load a n = t ++ c :: u) (ht : c ∉ t) : m.memchr c a n = some (a + t.length) := by
  have hlen : n = t.length + (u.length + 1) := by
    rw [← length_load (m := m) (a := a) (n := n), h, List.length_append, List.length_cons]
  have hget : ∀ i, i < n → (t ++ c :: u)[i]? = some (m (a + i)) := by
    intro i hi
    rw [← h, getElem?_load hi]
  refine memchr_eq_some_iff.2 ⟨Nat.le_add_right _ _, by omega, ?_, fun j hj hlt hc => ht ?_⟩
  · have hat := hget t.length (by omega)
    rw [List.getElem?_append_right (Nat.le_refl _), Nat.sub_self, List.getElem?_cons_zero] at hat
    exact (Option.some.inj hat).symm
  · have hat := hget (j - a) (by omega)
    rw [List.getElem?_append_left (by omega), Nat.add_sub_cancel' hj, hc] at hat
    exact List.mem_of_getElem? hat

/-! ## Strings -/

theorem StringAt.load (h : m.StringAt a t) : m.load a t.length = t := by
  have := h.2
  rw [load_add] at this
  exact (List.append_inj this (by simp)).1

theorem StringAt.nul (h : m.StringAt a t) : m (a + t.length) = Text.nul := by
  have := h.2
  rw [load_add] at this
  simpa [Mem.load] using (List.append_inj this (by simp)).2

/-- A string does not end before its end. -/
theorem StringAt.length_le (h : m.StringAt a t) (h' : m.StringAt a u) : u.length ≤ t.length := by
  refine Nat.le_of_not_lt fun hlt => h'.1 ?_
  have hget : u[t.length]? = some (m (a + t.length)) := by rw [← getElem?_load hlt, h'.load]
  rw [h.nul] at hget
  exact List.mem_of_getElem? hget

/-- There is one string at an address. -/
theorem StringAt.unique (h : m.StringAt a t) (h' : m.StringAt a u) : t = u := by
  rw [← h.load, ← h'.load, Nat.le_antisymm (h'.length_le h) (h.length_le h')]

theorem StringAt.load_of_le (h : m.StringAt a t) (hn : n ≤ t.length) : m.load a n = t.take n := by
  obtain ⟨k, hk⟩ := Nat.exists_eq_add_of_le hn
  have hload := h.load
  rw [hk, load_add] at hload
  rw [← hload, List.take_left' length_load]

/-- The bytes from the address of a string on, cut at the first NUL. -/
theorem StringAt.cstr_load (h : m.StringAt a t) (n : ℕ) : cstr (m.load a n) = t.take n := by
  by_cases hn : n ≤ t.length
  · rw [h.load_of_le hn]
    exact cstr_of_notMem fun hnul => h.1 (List.mem_of_mem_take hnul)
  · obtain ⟨k, rfl⟩ := Nat.exists_eq_add_of_le (Nat.lt_of_not_le hn)
    rw [Nat.succ_eq_add_one, load_add, h.2, List.append_assoc, List.singleton_append, cstr_append_cons _ _ h.1,
      List.take_of_length_le (by omega)]

/-- The bytes in front of the first NUL are a string. -/
theorem stringAt_of_memchr (h : m.memchr Text.nul a n = some i) : m.StringAt a (m.load a (i - a)) := by
  obtain ⟨ha, -, hnul, hfirst⟩ := memchr_eq_some_iff.1 h
  constructor
  · intro hmem
    obtain ⟨j, hj, hc⟩ := List.mem_map.1 hmem
    have := List.mem_range.1 hj
    exact hfirst (a + j) (by omega) (by omega) hc
  · rw [length_load, load_add, Nat.add_sub_cancel' ha]
    exact congrArg (m.load a (i - a) ++ [·]) hnul

theorem StringAt.memchr (h : m.StringAt a t) (hn : t.length < n) :
    m.memchr Text.nul a n = some (a + t.length) := by
  refine memchr_eq_some_iff.2 ⟨by omega, by omega, h.nul, fun j hj hlt hnul => h.1 ?_⟩
  have hget : (m.load a t.length)[j - a]? = some (m (a + (j - a))) := getElem?_load (by omega)
  rw [h.load, Nat.add_sub_cancel' hj, hnul] at hget
  exact List.mem_of_getElem? hget

/-- What `strcpy` writes is a string. -/
theorem stringAt_store_nul (m : Mem) (a : ℕ) (ht : Text.nul ∉ t) : (m.store a (t ++ [Text.nul])).StringAt a t := by
  refine ⟨ht, ?_⟩
  have hload := load_store m a (t ++ [Text.nul])
  rwa [List.length_append] at hload

/-- What is stored in front of a string is put before it. -/
theorem stringAt_store_append (ht : Text.nul ∉ t) :
    (m.store a t).StringAt a (t ++ u) ↔ m.StringAt (a + t.length) u := by
  have hload : (m.store a t).load a ((t ++ u).length + 1) = t ++ m.load (a + t.length) (u.length + 1) := by
    rw [List.length_append, Nat.add_assoc, load_add, load_store, load_store_of_ge (Nat.le_refl _)]
  rw [StringAt, StringAt, hload, List.append_assoc, List.append_cancel_left_eq, List.mem_append, not_or]
  exact ⟨fun ⟨h, h'⟩ => ⟨h.2, h'⟩, fun ⟨h, h'⟩ => ⟨⟨ht, h⟩, h'⟩⟩

/-- A string keeps its length when its first bytes are stored over. -/
theorem StringAt.store_of_le (h : m.StringAt a u) (ht : Text.nul ∉ t) (hle : t.length ≤ u.length) :
    (m.store a t).StringAt a (t ++ u.drop t.length) := by
  rw [stringAt_store_append ht]
  refine ⟨fun hmem => h.1 (List.mem_of_mem_drop hmem), ?_⟩
  have hload := h.2
  have hlen : u.length + 1 = t.length + ((u.drop t.length).length + 1) := by
    rw [List.length_drop]
    omega
  rw [hlen, load_add] at hload
  have htake : u ++ [Text.nul] = u.take t.length ++ (u.drop t.length ++ [Text.nul]) := by
    rw [← List.append_assoc, List.take_append_drop]
  rw [htake] at hload
  exact (List.append_inj hload (by rw [length_load, List.length_take, Nat.min_eq_left hle])).2

/-- A string is not changed by what is stored behind it. -/
theorem StringAt.store_of_gt (h : m.StringAt a t) (hk : a + t.length < k) : (m.store k u).StringAt a t :=
  ⟨h.1, by rw [load_store_of_le (by omega), h.2]⟩

/-- A string is stored with its NUL. -/
theorem stringAt_store (ht : Text.nul ∉ t) (hm : m.load a t.length = t) :
    (m.store (a + t.length) [Text.nul]).StringAt a t := by
  refine ⟨ht, ?_⟩
  rw [load_add, load_store_of_le (by omega), hm]
  exact congrArg (t ++ ·) (load_store m (a + t.length) [Text.nul])

end Mem
