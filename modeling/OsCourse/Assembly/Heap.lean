/-
  The letter counter (IDZ3), one call after the other: each text is read into fresh memory, and
  each answer is built behind it.
-/
import OsCourse.Assembly.Letters

namespace Letters

open Riscv While

/-- The bytes of `k + 1` texts with their answers. -/
def space (k : ℕ) : ℕ := 10340 * (k + 1)

theorem space_succ (k : ℕ) : space (k + 1) = space k + 10340 := Nat.mul_succ 10340 (k + 1)

theorem le_space (k : ℕ) : 10340 ≤ space k := Nat.le_mul_of_pos_right 10340 (Nat.succ_pos k)

/-- There is room on the heap, where nothing has been stored. -/
structure Ready (l : Layout) (k : ℕ) (s : Machine) : Prop where
  tables : Tables l s.mem
  heap_le : l.heap.toNat ≤ s.brk.toNat
  room : s.brk.toNat + space k ≤ 2 ^ 32
  zero : ∀ a, s.brk.toNat ≤ a.toNat → s.mem a = 0

/-- What the caller of `read_string_from_file` finds: the text, or a zero in its place. -/
def HoldsText (m : Ram) (a : Word) (t : List Byte) : Prop := Spells m a t ∧ (t = [] → m a = 0)

variable {l : Layout} {s : Machine} {k v c fuel : ℕ}

theorem Ready.mono (h : Ready l (k + 1) s) : Ready l k s := by
  have hroom := h.room
  rw [space_succ] at hroom
  exact ⟨h.tables, h.heap_le, by omega, h.zero⟩

/-! ## Reading -/

/-- The blocks that have been given out hold the text. -/
theorem readStringFromFile_brk (hfuel : 20 ≤ fuel) (s : Machine) :
    ∃ s', readStringFromFile fuel s = some (s.brk, BitVec.ofNat 32 (text s.file).length, s') ∧
      s'.mem = sb (storeBytes s.mem s.brk (text s.file)) (byteAt s.brk ((text s.file).length + 1)) 0 ∧
      ∃ k ≤ 20, (text s.file).length ≤ textSize * k ∧ s'.brk = byteAt s.brk (textSize * k) := by
  have hloop : ∃ b, run readLoop fuel { s5 := s.brk, s6 := 0, machine := (s.allocate textSize).2 } = some b ∧
      ∃ c, b = some c ∧ ∃ k ≤ 20, (text s.file).length ≤ textSize * k ∧ c.2.brk = byteAt s.brk (textSize * k) := by
    refine run_of_counter (i := 0) (n := 20) (J := Reading s) ?_ (.start s) (by omega) (by omega)
    intro i r hi hr
    rcases readLoop_cases hr hi with ⟨hround, hend⟩ | ⟨r', hround, hi', hr', -⟩
    · refine .inl ⟨_, hround, _, rfl, i + 1, hi, ?_, hr.brk⟩
      rw [text, List.length_take]
      simp only [textSize, maxTextSize] at hend ⊢
      omega
    · exact .inr ⟨r', hround, hi', hr'⟩
  obtain ⟨-, hrun, ⟨s6, s'⟩, rfl, k, hk, hlen, hbrk⟩ := hloop
  obtain ⟨s'', hread, hmem, -⟩ := readStringFromFile_spec hfuel s
  obtain ⟨-, h⟩ := Prod.mk.inj (Option.some.inj ((readStringFromFile_eq hrun).symm.trans hread))
  obtain ⟨-, rfl⟩ := Prod.mk.inj h
  exact ⟨_, hread, hmem, k, hk, hlen, hbrk⟩

/-- **One more text** is read. -/
theorem Ready.read (h : Ready l (k + 1) s) (hfuel : 20 ≤ fuel) (file : List Byte) :
    ∃ s', readStringFromFile fuel { s with file := file } =
        some (s.brk, BitVec.ofNat 32 (text file).length, s') ∧
      Ready l k s' ∧ HoldsText s'.mem s.brk (text file) := by
  obtain ⟨s', hread, hmem, i, hi, hlen, hbrk⟩ := readStringFromFile_brk hfuel { s with file := file }
  dsimp only at hread hmem hlen hbrk
  have hroom := h.room
  rw [space_succ] at hroom
  have hspace := le_space k
  have hheap := h.heap_le
  have hshort : (text file).length ≤ 10240 := length_text_le file
  have hend : (byteAt s.brk ((text file).length + 1)).toNat = s.brk.toNat + ((text file).length + 1) :=
    toNat_byteAt (by omega)
  have hi' : textSize * i ≤ 10240 := Nat.mul_le_mul_left textSize hi
  have hbrk' : s'.brk.toNat = s.brk.toNat + textSize * i := by
    rw [hbrk, toNat_byteAt (by omega)]
  -- what is not the terminator
  have hkeep : ∀ a, a.toNat ≠ s.brk.toNat + ((text file).length + 1) →
      s'.mem a = storeBytes s.mem s.brk (text file) a := by
    intro a ha
    rw [hmem, sb, if_neg]
    rintro rfl
    exact ha hend
  have hzero : ∀ a, s'.brk.toNat ≤ a.toNat → s'.mem a = 0 := by
    intro a ha
    by_cases hterm : a = byteAt s.brk ((text file).length + 1)
    · rw [hmem, sb, if_pos hterm]
      rfl
    · have hout : (text file).length ≤ (a - s.brk).toNat := by
        rw [BitVec.toNat_sub]
        omega
      rw [hmem, sb, if_neg hterm, storeBytes_of_le hout]
      exact h.zero a (by omega)
  refine ⟨s', hread, ⟨h.tables.frame fun a ha => ?_, by omega, by omega, hzero⟩, ?_, fun hnil => ?_⟩
  · rw [hkeep a (by omega), storeBytes_of_lt (by omega) (by omega)]
  · refine (spells_storeBytes (by omega) s.mem s.brk).congr fun j hj => hkeep _ ?_
    rw [toNat_byteAt (by omega)]
    omega
  · rw [hkeep _ (by omega), hnil, storeBytes_nil]
    exact h.zero _ (Nat.le_refl _)

/-! ## The answer -/

theorem copyLoop_brk {s4 : Word} {r : CopyRegs} {b : Word × Machine} (h : run (copyLoop s4) fuel r = some b) :
    b.2.brk = r.machine.brk := by
  refine Returns.of_invariant (J := fun r' : CopyRegs => r'.machine.brk = r.machine.brk)
    (Q := fun b => b.2.brk = r.machine.brk) ?_ ?_ ⟨fuel, h⟩ rfl
  · intro r₁ r₂ h₁ hround
    rw [copyLoop] at hround
    split_ifs at hround
    obtain rfl := Sum.inl.inj hround
    exact h₁
  · intro r₁ b h₁ hround
    rw [copyLoop] at hround
    split_ifs at hround
    obtain rfl := Sum.inr.inj hround
    exact h₁

/-- The answer has a block of its own. -/
theorem createString_brk {a0 a1 a n : Word} {s' : Machine} (h : createString l fuel s a0 a1 = some (a, n, s')) :
    s'.brk = byteAt s.brk 100 := by
  rw [createString] at h
  dsimp only [Option.bind_eq_bind] at h
  obtain ⟨⟨s7, s₁⟩, h₁, h⟩ := Option.bind_eq_some_iff.1 h
  obtain ⟨⟨s7', s₂⟩, h₂, h⟩ := Option.bind_eq_some_iff.1 h
  obtain ⟨-, h⟩ := Prod.mk.inj (Option.some.inj h)
  obtain ⟨-, rfl⟩ := Prod.mk.inj h
  exact (copyLoop_brk h₂).trans (copyLoop_brk h₁)

/-- **The answer** is built behind the text. -/
theorem Ready.answer (h : Ready l (k + 1) s) {a : Word} {file : List Byte} (ha : HoldsText s.mem a (text file))
    (hfuel : 10240 ≤ fuel) :
    ∃ v c s', countingVowelsAndConsonants l fuel s.mem a (BitVec.ofNat 32 (text file).length) = some (v, c) ∧
      createString l fuel s v c = some (s.brk, 50, s') ∧ Ready l k s' ∧
      Spells s'.mem s.brk (answer (numVowels (text file)) (numConsonants (text file))) := by
  have hroom := h.room
  rw [space_succ] at hroom
  have hspace := le_space k
  have hheap := h.heap_le
  have hshort : (text file).length ≤ 10240 := length_text_le file
  have hv := numVowels_le file
  have hc := numConsonants_le file
  have hlen := length_answer (numVowels (text file)) (numConsonants (text file))
  obtain ⟨s', hcreate, hmem⟩ := createString_spec (v := numVowels (text file)) (c := numConsonants (text file))
    h.tables hheap (by omega) (Nat.le_trans (by decide) hfuel) (by omega) (by omega)
  have hbrk : s'.brk.toNat = s.brk.toNat + 100 := by
    rw [createString_brk hcreate, toNat_byteAt (by omega)]
  refine ⟨_, _, s', countingVowelsAndConsonants_spec h.tables ha.1 ha.2 (by omega) (by omega)
    (Nat.le_trans hshort hfuel), hcreate, ⟨h.tables.frame fun b hb => ?_, by omega, by omega, fun b hb => ?_⟩, ?_⟩
  · rw [hmem, storeBytes_of_lt (by omega) (by omega)]
  · have hout : (Letters.answer (numVowels (text file)) (numConsonants (text file))).length ≤ (b - s.brk).toNat := by
      rw [hlen, BitVec.toNat_sub]
      omega
    rw [hmem, storeBytes_of_le hout]
    exact h.zero b (by omega)
  · rw [hmem]
    exact spells_storeBytes (by omega) _ _

end Letters
