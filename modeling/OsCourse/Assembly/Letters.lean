/-
  The letter counter (IDZ3): when the answer of the program is right.
-/
import OsCourse.Assembly.StringHandler

namespace Letters

open Riscv

/-! ## The program -/

/-- `program` up to the output of the answer. -/
def program (l : Layout) (fuel : ℕ) (s : Machine) : Option (Word × Word × Machine) := do
  let (a0, a1, s) ← readStringFromFile fuel s
  let (a0, a1) ← countingVowelsAndConsonants l fuel s.mem a0 a1
  createString l fuel s a0 a1

variable {l : Layout} {m : Ram} {a : Word} {s : Machine} {n fuel : ℕ}

/-- Before the program: the string constants are in the memory, and the heap is empty. -/
structure Started (l : Layout) (s : Machine) : Prop where
  tables : Tables l s.mem
  brk : s.brk = l.heap
  fresh : ∀ i < 10340, s.mem (byteAt l.heap i) = 0

/-- Nothing below the heap has changed. -/
theorem Tables.frame {m' : Ram} (h : Tables l m) (hm : ∀ a, a.toNat < l.heap.toNat → m' a = m a) : Tables l m' := by
  have hroom := l.room
  have hbelow : ∀ {base : Word} {bs : List Byte}, Spells m base bs → base.toNat + bs.length ≤ l.heap.toNat →
      Spells m' base bs := by
    intro base bs hbs hle
    refine hbs.congr fun i hi => hm _ ?_
    rw [toNat_byteAt (by omega)]
    omega
  exact ⟨hbelow h.vowels l.vowels_le, hbelow h.consonants l.consonants_le, hbelow h.vow l.vow_le,
    hbelow h.cons l.cons_le⟩

/-- The text is in the memory when it has been read. -/
theorem Started.read (h : Started l s) (hfuel : 20 ≤ fuel) :
    ∃ s', readStringFromFile fuel s = some (l.heap, BitVec.ofNat 32 (text s.file).length, s') ∧
      Tables l s'.mem ∧ Spells s'.mem l.heap (text s.file) ∧ (text s.file = [] → s'.mem l.heap = 0) ∧
      l.heap.toNat ≤ s'.brk.toNat ∧ s'.brk.toNat + 100 ≤ 2 ^ 32 := by
  obtain ⟨s', hrun, hmem, k, hk, hbrk⟩ := readStringFromFile_spec hfuel s
  have hroom := l.room
  have hlen : (text s.file).length ≤ 10240 := length_text_le s.file
  have hend : (byteAt l.heap ((text s.file).length + 1)).toNat = l.heap.toNat + ((text s.file).length + 1) :=
    toNat_byteAt (by omega)
  have hk' : textSize * k ≤ 10240 := Nat.mul_le_mul_left textSize hk
  have hbrk' : s'.brk.toNat = l.heap.toNat + textSize * k := by
    rw [hbrk, h.brk, toNat_byteAt (by omega)]
  rw [h.brk] at hrun hmem
  -- what is not the terminator
  have hkeep : ∀ a, a.toNat ≠ l.heap.toNat + ((text s.file).length + 1) →
      s'.mem a = storeBytes s.mem l.heap (text s.file) a := by
    intro a ha
    rw [hmem, sb, if_neg]
    rintro rfl
    exact ha hend
  refine ⟨s', hrun, h.tables.frame fun a ha => ?_, ?_, fun hnil => ?_, by omega, by omega⟩
  · rw [hkeep a (by omega), storeBytes_of_lt (by omega) ha]
  · refine (spells_storeBytes (by omega) s.mem l.heap).congr fun i hi => hkeep _ ?_
    rw [toNat_byteAt (by omega)]
    omega
  · rw [hkeep _ (by omega), hnil, storeBytes_nil]
    simpa using h.fresh 0 (by decide)

theorem numVowels_le (file : List Byte) : numVowels (text file) ≤ 10240 :=
  Nat.le_trans List.countP_le_length (length_text_le file)

theorem numConsonants_le (file : List Byte) : numConsonants (text file) ≤ 10240 :=
  Nat.le_trans List.countP_le_length (length_text_le file)

/-- What the program builds. -/
theorem program_spec (h : Started l s) (hfuel : 10240 ≤ fuel) :
    ∃ a s', program l fuel s =
        some (a, BitVec.ofNat 32 (answer (numVowels (text s.file)) (numConsonants (text s.file))).length, s') ∧
      Spells s'.mem a (answer (numVowels (text s.file)) (numConsonants (text s.file))) := by
  have hlen : (text s.file).length ≤ 10240 := length_text_le s.file
  have hv := numVowels_le s.file
  have hc := numConsonants_le s.file
  obtain ⟨s₁, hread, htables, htext, hempty, hheap, hroom⟩ := h.read (Nat.le_trans (by decide) hfuel)
  have hcount := countingVowelsAndConsonants_spec htables htext hempty (by omega) (by omega)
    (Nat.le_trans hlen hfuel)
  obtain ⟨s', hcreate, hmem⟩ := createString_spec (v := numVowels (text s.file)) (c := numConsonants (text s.file))
    htables hheap hroom (Nat.le_trans (by decide) hfuel) (by omega) (by omega)
  refine ⟨s₁.brk, s', ?_, ?_⟩
  · rw [program, hread]
    simp only [Option.bind_eq_bind, Option.bind_some, hcount]
    exact hcreate
  · rw [hmem]
    exact spells_storeBytes (length_answer _ _ ▸ by decide) _ _

/-! ## Decimal digits -/

def IsDigit (d : Byte) : Prop := 48 ≤ d.toNat ∧ d.toNat ≤ 57

instance (d : Byte) : Decidable (IsDigit d) := inferInstanceAs (Decidable (_ ∧ _))

/-- A sequence of decimal digits with the value `n`. -/
structure IsDecimal (ds : List Byte) (n : ℕ) : Prop where
  ne_nil : ds ≠ []
  digits : ∀ d ∈ ds, IsDigit d
  value : ds.foldl (fun n d => 10 * n + (d.toNat - 48)) 0 = n

/-- What the program is for. -/
def Reports (l : Layout) (fuel : ℕ) (s : Machine) : Prop :=
  ∃ a size s' V C, program l fuel s = some (a, size, s') ∧
    IsDecimal V (numVowels (text s.file)) ∧ IsDecimal C (numConsonants (text s.file)) ∧
    size = BitVec.ofNat 32 (vow ++ V ++ cons ++ C ++ [0]).length ∧ Spells s'.mem a (vow ++ V ++ cons ++ C ++ [0])

theorem toNat_digit {d : ℕ} (hd : d ≤ 10) : (BitVec.ofNat 8 (d + 48)).toNat = d + 48 := by
  rw [BitVec.toNat_ofNat]
  omega

/-- Four digits are enough for 9999. -/
theorem isDecimal_fourDigits (hn : n ≤ 9999) : IsDecimal (fourDigits n) n := by
  have h1 := toNat_digit (d := n / 1000) (by omega)
  have h2 := toNat_digit (d := n % 1000 / 100) (by omega)
  have h3 := toNat_digit (d := n % 1000 % 100 / 10) (by omega)
  have h4 := toNat_digit (d := n % 1000 % 100 % 10) (by omega)
  refine ⟨by simp [fourDigits], ?_, ?_⟩
  · simp only [fourDigits, IsDigit, List.map_cons, List.map_nil, List.forall_mem_cons, h1, h2, h3, h4]
    refine ⟨?_, ?_, ?_, ?_, by simp⟩
    all_goals omega
  · simp only [fourDigits, List.map_cons, List.map_nil, List.foldl_cons, List.foldl_nil, h1, h2, h3, h4]
    omega

/-- The first of the four digits of a greater number is a colon. -/
theorem le_of_isDigit (hn : n ≤ 10240) (h : IsDigit (BitVec.ofNat 8 (n / 1000 + 48))) : n ≤ 9999 := by
  unfold IsDigit at h
  rw [toNat_digit (by omega)] at h
  omega

theorem le_of_spells {ds t u : List Byte} {k : ℕ} (hn : n ≤ 10240) (hds : IsDecimal ds k)
    (h : Spells m a (fourDigits n ++ t)) (h' : Spells m a (ds ++ u)) : n ≤ 9999 := by
  obtain ⟨d, ds, rfl⟩ := List.exists_cons_of_ne_nil hds.ne_nil
  have heq : BitVec.ofNat 8 (n / 1000 + 48) = d := (spells_cons.1 h).1.symm.trans (spells_cons.1 h').1
  exact le_of_isDigit hn (heq ▸ hds.digits d List.mem_cons_self)

/-- A right answer has room for both numbers. -/
theorem Reports.le (h : Started l s) (hfuel : 10240 ≤ fuel) (hr : Reports l fuel s) :
    numVowels (text s.file) ≤ 9999 ∧ numConsonants (text s.file) ≤ 9999 := by
  obtain ⟨a, s', hrun, hspells⟩ := program_spec h hfuel
  obtain ⟨a', size, s'', V, C, hrun', hV, hC, -, hspells'⟩ := hr
  obtain ⟨rfl, -, rfl⟩ : a = a' ∧ _ ∧ s' = s'' := by simpa [hrun] using hrun'
  simp only [answer, List.append_assoc] at hspells hspells'
  have hvow := (spells_append.1 hspells).2
  have hvow' := (spells_append.1 hspells').2
  have hv := le_of_spells (numVowels_le _) hV hvow hvow'
  -- both begin with a digit sequence and go on with the line break
  have hbreak : ¬ IsDigit 10 := by decide
  have hsame : fourDigits (numVowels (text s.file)) = V :=
    hvow.run_unique hvow' (isDecimal_fourDigits hv).digits hbreak hV.digits hbreak
  rw [← hsame] at hvow'
  exact ⟨hv, le_of_spells (numConsonants_le _) hC (spells_append.1 (spells_append.1 hvow).2).2
    (spells_append.1 (spells_append.1 hvow').2).2⟩

/-- **The answer is right if and only if** there are at most 9999 vowels and at most 9999
    consonants. -/
theorem program_reports_iff (h : Started l s) (hfuel : 10240 ≤ fuel) :
    Reports l fuel s ↔ numVowels (text s.file) ≤ 9999 ∧ numConsonants (text s.file) ≤ 9999 := by
  constructor
  · intro hr
    exact hr.le h hfuel
  · rintro ⟨hv, hc⟩
    obtain ⟨a, s', hrun, hspells⟩ := program_spec h hfuel
    exact ⟨a, _, s', _, _, hrun, isDecimal_fourDigits hv, isDecimal_fourDigits hc, rfl, hspells⟩

/-! ## A small data segment -/

/-- The string constants in the order of the source. -/
def segment : List Byte :=
  vowels ++ ([0, 0, 0, 0] ++ (consonants ++ ([0] ++ (cons ++ ([0] ++ (vow ++ [0]))))))

/-- A data segment with the string constants only. -/
def Layout.small : Layout where
  vowels := 0x10010000
  consonants := 0x10010010
  cons := 0x10010039
  vow := 0x10010051
  heap := 0x10040000
  vowels_le := by decide
  consonants_le := by decide
  vow_le := by decide
  cons_le := by decide
  room := by decide

/-- The machine when the file has been opened. -/
def Machine.start (file : List Byte) : Machine where
  mem := storeBytes (fun _ => 0) 0x10010000 segment
  brk := 0x10040000
  file := file
  blocks := []
  written := []

theorem started_start (file : List Byte) : Started .small (.start file) := by
  have hlen : segment.length = 100 := by decide
  have hall : Spells (Machine.start file).mem 0x10010000 segment := spells_storeBytes (by rw [hlen]; decide) _ _
  obtain ⟨hvowels, hall⟩ := spells_append.1 hall
  obtain ⟨-, hall⟩ := spells_append.1 hall
  obtain ⟨hconsonants, hall⟩ := spells_append.1 hall
  obtain ⟨-, hall⟩ := spells_append.1 hall
  obtain ⟨hcons, hall⟩ := spells_append.1 hall
  obtain ⟨-, hall⟩ := spells_append.1 hall
  obtain ⟨hvow, -⟩ := spells_append.1 hall
  refine ⟨⟨hvowels, hconsonants, hvow, hcons⟩, rfl, fun i hi => ?_⟩
  have hheap : Layout.small.heap.toNat = 0x10040000 := rfl
  have hbase : (0x10010000 : Word).toNat = 0x10010000 := rfl
  have hbehind : segment.length ≤ (byteAt Layout.small.heap i - 0x10010000).toNat := by
    rw [hlen, BitVec.toNat_sub, toNat_byteAt (by omega)]
    omega
  exact storeBytes_of_le hbehind fun _ => 0

theorem program_reports_iff_hello : Reports .small 10240 (.start (ascii "Hello, world")) :=
  (program_reports_iff (started_start _) (Nat.le_refl _)).2 ⟨by decide, by decide⟩

/-- Ten thousand times the letter `a`. -/
theorem not_reports_replicate : ¬ Reports .small 10240 (.start (List.replicate 10000 0x61)) := by
  intro hr
  have hle := (hr.le (started_start _) (Nat.le_refl _)).1
  have htext : text (Machine.start (List.replicate 10000 0x61)).file = List.replicate 10000 0x61 :=
    List.take_of_length_le (by rw [Machine.start, List.length_replicate]; decide)
  rw [htext, numVowels, List.countP_replicate, if_pos (by decide)] at hle
  exact absurd hle (by decide)

end Letters
