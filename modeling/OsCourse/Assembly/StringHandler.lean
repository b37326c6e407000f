/-
  The letter counter (IDZ3): the vowels and the consonants of a text are counted, and the answer
  is written into a buffer.
-/
import Mathlib.Data.List.Basic
import OsCourse.Assembly.IoHandler

namespace Letters

open Riscv While

/-! ## The data segment -/

/-- The bytes of a string constant. -/
def ascii (t : String) : List Byte := t.toList.map fun c => BitVec.ofNat 8 c.toNat

def vowels : List Byte := ascii "eyuioaEYUIOA"
def consonants : List Byte := ascii "qwrtpsdfghjklzxcvbnmQWRTPSDFGHJKLZXCVBNM"
def vow : List Byte := ascii "number of vowels: "
def cons : List Byte := ascii "\nnumber of consonants: "

/-- Where the string constants are, and where the heap begins. -/
structure Layout where
  vowels : Word
  consonants : Word
  vow : Word
  cons : Word
  heap : Word
  vowels_le : vowels.toNat + 12 ≤ heap.toNat
  consonants_le : consonants.toNat + 40 ≤ heap.toNat
  vow_le : vow.toNat + 18 ≤ heap.toNat
  cons_le : cons.toNat + 23 ≤ heap.toNat
  room : heap.toNat + 10340 ≤ 2 ^ 32

/-- The string constants are in the memory. -/
structure Tables (l : Layout) (m : Ram) : Prop where
  vowels : Spells m l.vowels vowels
  consonants : Spells m l.consonants consonants
  vow : Spells m l.vow vow
  cons : Spells m l.cons cons

/-! ## `letter_type` -/

/-- The registers of `vowel_loop` and `consonant_loop`. -/
structure LetterRegs where
  t0 : Word
  t1 : Word

/-- A round of `vowel_loop`, and of `consonant_loop`: is the letter in the table? -/
def letterLoop (m : Ram) (t5 t2 : Word) (r : LetterRegs) : LetterRegs ⊕ Bool :=
  let t3 := lb m r.t0
  if t3 = t5 then .inr true
  else
    let t0 := r.t0 + 1
    let t1 := r.t1 + 1
    if t1.slt t2 then .inl { t0 := t0, t1 := t1 } else .inr false

/-- `letter_type`: 1 for a vowel, 2 for a consonant, 0 for anything else. -/
def letterType (l : Layout) (fuel : ℕ) (m : Ram) (a0 : Word) : Option Word := do
  let t5 := a0
  let isVowel ← run (letterLoop m t5 12) fuel { t0 := l.vowels, t1 := 0 }
  if isVowel then some 1
  else
    let isConsonant ← run (letterLoop m t5 40) fuel { t0 := l.consonants, t1 := 0 }
    if isConsonant then some 2 else some 0

/-! ## `counting_vowels_and_consonants` -/

/-- The registers of `string_loop`. -/
structure CountRegs where
  s0 : Word
  s2 : Word
  s3 : Word
  s4 : Word

def stringLoop (l : Layout) (fuel : ℕ) (m : Ram) (s1 : Word) (r : CountRegs) :
    CountRegs ⊕ Option (Word × Word) :=
  match letterType l fuel m (lb m r.s0) with
  | none => .inr none
  | some a0 =>
    let (s3, s4) :=
      if a0 = 0 then (r.s3, r.s4)
      else if a0 + -1 = 0 then (r.s3 + 1, r.s4)
      else (r.s3, r.s4 + 1)
    let s0 := r.s0 + 1
    let s2 := r.s2 + 1
    if s2.slt s1 then .inl { s0 := s0, s2 := s2, s3 := s3, s4 := s4 } else .inr (some (s3, s4))

/-- `counting_vowels_and_consonants` in the string at `a0` of the length `a1`. -/
def countingVowelsAndConsonants (l : Layout) (fuel : ℕ) (m : Ram) (a0 a1 : Word) : Option (Word × Word) :=
  (run (stringLoop l fuel m a1) fuel { s0 := a0, s2 := 0, s3 := 0, s4 := 0 }).join

/-! ## `create_string` -/

/-- The registers of `vow_loop` and `cons_loop`. -/
structure CopyRegs where
  s2 : Word
  s3 : Word
  s7 : Word
  machine : Machine

/-- A round of `vow_loop`, and of `cons_loop`. -/
def copyLoop (s4 : Word) (r : CopyRegs) : CopyRegs ⊕ (Word × Machine) :=
  let t0 := lb r.machine.mem r.s2
  let s := r.machine.store r.s7 t0
  let s7 := r.s7 + 1
  let s3 := r.s3 + 1
  let s2 := r.s2 + 1
  if s3.slt s4 then .inl { s2 := s2, s3 := s3, s7 := s7, machine := s } else .inr (s7, s)

/-- The four digits of a number, which `create_string` has once for the vowels in `s0` and once
    for the consonants in `s1`. -/
def digits (s : Machine) (s7 x : Word) : Word × Machine :=
  -- gets 1 digit
  let t1 := div x 1000
  let s := s.store s7 (t1 + 48)
  let s7 := s7 + 1
  -- gets 2 digit
  let x := rem x 1000
  let t1 := div x 100
  let s := s.store s7 (t1 + 48)
  let s7 := s7 + 1
  -- gets 3 digit
  let x := rem x 100
  let t1 := div x 10
  let s := s.store s7 (t1 + 48)
  let s7 := s7 + 1
  -- gets 4 digit
  let x := rem x 10
  let s := s.store s7 (x + 48)
  let s7 := s7 + 1
  (s7, s)

/-- `create_string` from the number of vowels and the number of consonants: the address of the
    answer and its size. -/
def createString (l : Layout) (fuel : ℕ) (s : Machine) (a0 a1 : Word) : Option (Word × Word × Machine) := do
  let (s5, s) := s.allocate 100
  let s6 := 0
  let (s7, s) ← run (copyLoop 18) fuel { s2 := l.vow, s3 := 0, s7 := s5, machine := s }
  let s6 := s6 + 18
  let (s7, s) := digits s s7 a0
  let s6 := s6 + 4
  let (s7, s) ← run (copyLoop 23) fuel { s2 := l.cons, s3 := 0, s7 := s7, machine := s }
  let s6 := s6 + 23
  let (s7, s) := digits s s7 a1
  let s6 := s6 + 4
  let s := s.store s7 0
  let s6 := s6 + 1
  some (s5, s6, s)

/-! ## Letters -/

/-- The English vowels, with `y`. -/
def IsVowel (x : Byte) : Prop := x ∈ ascii "aeiouyAEIOUY"

def IsLetter (x : Byte) : Prop := 65 ≤ x.toNat ∧ x.toNat ≤ 90 ∨ 97 ≤ x.toNat ∧ x.toNat ≤ 122

def IsConsonant (x : Byte) : Prop := IsLetter x ∧ ¬ IsVowel x

instance (x : Byte) : Decidable (IsVowel x) := inferInstanceAs (Decidable (_ ∈ _))
instance (x : Byte) : Decidable (IsLetter x) := inferInstanceAs (Decidable (_ ∨ _))
instance (x : Byte) : Decidable (IsConsonant x) := inferInstanceAs (Decidable (_ ∧ _))

def numVowels (bs : List Byte) : ℕ := bs.countP (IsVowel ·)
def numConsonants (bs : List Byte) : ℕ := bs.countP (IsConsonant ·)

theorem mem_vowels (x : Byte) : x ∈ vowels ↔ IsVowel x := by
  have hperm : vowels.Perm (ascii "aeiouyAEIOUY") := List.isPerm_iff.1 (by decide)
  exact hperm.mem_iff

theorem mem_consonants (x : Byte) : x ∈ consonants ↔ IsConsonant x := by
  have hall : ∀ i : Fin 256, BitVec.ofFin i ∈ consonants ↔ IsConsonant (BitVec.ofFin i) := by decide +kernel
  exact hall x.toFin

variable {l : Layout} {m : Ram} {a x : Word} {s : Machine} {bs table : List Byte} {n i fuel : ℕ}

theorem letterLoop_spec (h : Spells m a table) (hne : table ≠ []) (hlen : table.length < 2 ^ 31)
    (hfuel : table.length ≤ fuel) (x : Byte) :
    run (letterLoop m (x.signExtend 32) (BitVec.ofNat 32 table.length)) fuel { t0 := a, t1 := 0 } =
      some (decide (x ∈ table)) := by
  have hloop : ∃ b, run (letterLoop m (x.signExtend 32) (BitVec.ofNat 32 table.length)) fuel { t0 := a, t1 := 0 } =
      some b ∧ b = decide (x ∈ table) := by
    refine run_of_counter (i := 0) (n := table.length) (J := fun i r => r.t0 = byteAt a i ∧
      r.t1 = BitVec.ofNat 32 i ∧ x ∉ table.take i) ?_ ⟨(byteAt_zero a).symm, rfl, by simp⟩
      (List.length_pos_iff.2 hne) (by omega)
    rintro i ⟨t0, t1⟩ hi ⟨rfl, rfl, hnot⟩
    have hbyte : lb m (byteAt a i) = (table[i]).signExtend 32 := by rw [lb, h i hi]
    have hnext : table[i].signExtend 32 ≠ x.signExtend 32 → x ∉ table.take (i + 1) := by
      intro hx
      rw [List.take_succ_eq_append_getElem hi, List.mem_append, List.mem_singleton]
      rintro (hin | rfl)
      · exact hnot hin
      · exact hx rfl
    rw [letterLoop]
    dsimp only
    rw [hbyte]
    split_ifs with hx hmore
    · have hmem : x ∈ table := signExtend_inj.1 hx ▸ List.getElem_mem hi
      exact .inl ⟨_, rfl, (decide_eq_true hmem).symm⟩
    · exact .inr ⟨_, rfl, (slt_succ hlen (by omega)).1 hmore, byteAt_succ a i, ofNat_succ i, hnext hx⟩
    · have hlast : table.length ≤ i + 1 := Nat.not_lt.1 (mt (slt_succ hlen (by omega)).2 hmore)
      have hnot' := hnext hx
      rw [List.take_of_length_le hlast] at hnot'
      exact .inl ⟨_, rfl, (decide_eq_false hnot').symm⟩
  obtain ⟨b, hrun, rfl⟩ := hloop
  exact hrun

/-- What `letter_type` returns. -/
def letterKind (x : Byte) : Word := if IsVowel x then 1 else if IsConsonant x then 2 else 0

theorem letterType_spec (h : Tables l m) (hfuel : 40 ≤ fuel) (x : Byte) :
    letterType l fuel m (x.signExtend 32) = some (letterKind x) := by
  have hvowels := letterLoop_spec h.vowels (by decide) (by decide) (Nat.le_trans (by decide) hfuel) x
  have hconsonants := letterLoop_spec h.consonants (by decide) (by decide) (Nat.le_trans (by decide) hfuel) x
  have hv : BitVec.ofNat 32 vowels.length = 12 := by decide
  have hc : BitVec.ofNat 32 consonants.length = 40 := by decide
  rw [hv] at hvowels
  rw [hc] at hconsonants
  rw [letterType, letterKind]
  simp only [hvowels, hconsonants, Option.bind_eq_bind, Option.bind_some, decide_eq_true_eq, mem_vowels,
    mem_consonants]
  split_ifs
  all_goals rfl

/-! ## Counting -/

theorem countP_take_succ (p : Byte → Prop) [DecidablePred p] (hi : i < bs.length) :
    (bs.take (i + 1)).countP (p ·) = (bs.take i).countP (p ·) + if p bs[i] then 1 else 0 := by
  rw [List.take_succ_eq_append_getElem hi, List.countP_append, List.countP_singleton]
  simp only [decide_eq_true_eq]

/-- How the counters change. -/
theorem counters_eq (x : Byte) (v c : ℕ) :
    (if letterKind x = 0 then (BitVec.ofNat 32 v, BitVec.ofNat 32 c)
      else if letterKind x + -1 = 0 then (BitVec.ofNat 32 v + 1, BitVec.ofNat 32 c)
      else (BitVec.ofNat 32 v, BitVec.ofNat 32 c + 1)) =
    (BitVec.ofNat 32 (v + if IsVowel x then 1 else 0), BitVec.ofNat 32 (c + if IsConsonant x then 1 else 0)) := by
  rw [ofNat_succ, ofNat_succ, letterKind]
  by_cases hvowel : IsVowel x
  · have hnot : ¬ IsConsonant x := fun hcons => hcons.2 hvowel
    rw [if_pos hvowel, if_pos hvowel, if_neg hnot]
    rfl
  · by_cases hcons : IsConsonant x
    · rw [if_neg hvowel, if_pos hcons, if_neg hvowel, if_pos hcons]
      rfl
    · rw [if_neg hvowel, if_neg hcons, if_neg hvowel, if_neg hcons]
      rfl

/-- What one round does. -/
theorem stringLoop_eq (h : Tables l m) (hfuel : 40 ≤ fuel) {r : CountRegs} {x : Byte} (hx : m r.s0 = x)
    {v c : ℕ} (hv : r.s3 = BitVec.ofNat 32 v) (hc : r.s4 = BitVec.ofNat 32 c) (s1 : Word) :
    stringLoop l fuel m s1 r =
      let s3 := BitVec.ofNat 32 (v + if IsVowel x then 1 else 0)
      let s4 := BitVec.ofNat 32 (c + if IsConsonant x then 1 else 0)
      if (r.s2 + 1).slt s1 then .inl { s0 := r.s0 + 1, s2 := r.s2 + 1, s3 := s3, s4 := s4 }
      else .inr (some (s3, s4)) := by
  rw [stringLoop, lb, hx, letterType_spec h hfuel]
  dsimp only
  rw [hv, hc, counters_eq]

/-- The loop looks at the first byte in any case. -/
theorem stringLoop_spec (ht : Tables l m) (h : Spells m a bs) (hne : bs ≠ []) (hlen : bs.length < 2 ^ 31)
    (hn : n ≤ bs.length) (hn' : bs.length ≤ max n 1) (hfuel : 40 ≤ fuel) (hfuel' : bs.length ≤ fuel) :
    ∃ b, run (stringLoop l fuel m (BitVec.ofNat 32 n)) fuel { s0 := a, s2 := 0, s3 := 0, s4 := 0 } = some b ∧
      b = some (BitVec.ofNat 32 (numVowels bs), BitVec.ofNat 32 (numConsonants bs)) := by
  refine run_of_elements (i := 0) (n := bs.length) (J := fun i r => r.s0 = byteAt a i ∧
    r.s2 = BitVec.ofNat 32 i ∧ r.s3 = BitVec.ofNat 32 (numVowels (bs.take i)) ∧
    r.s4 = BitVec.ofNat 32 (numConsonants (bs.take i))) ?_ ⟨(byteAt_zero a).symm, rfl, rfl, rfl⟩
    (List.length_pos_iff.2 hne) (by omega)
  rintro i r hi ⟨hs0, hs2, hs3, hs4⟩
  have hmore : (r.s2 + 1).slt (BitVec.ofNat 32 n) = true ↔ i + 1 < bs.length := by
    rw [hs2, slt_succ (by omega) (by omega)]
    omega
  have hv : numVowels (bs.take (i + 1)) = numVowels (bs.take i) + if IsVowel bs[i] then 1 else 0 :=
    countP_take_succ IsVowel hi
  have hc : numConsonants (bs.take (i + 1)) = numConsonants (bs.take i) + if IsConsonant bs[i] then 1 else 0 :=
    countP_take_succ IsConsonant hi
  rw [stringLoop_eq ht hfuel (hs0 ▸ h i hi) hs3 hs4, ← hv, ← hc]
  refine ⟨_, _, if_congr hmore rfl rfl, ⟨by rw [hs0, byteAt_succ], by rw [hs2, ofNat_succ], rfl, rfl⟩, ?_⟩
  intro hlast
  rw [hlast, List.take_length]

/-- **The numbers of the vowels and the consonants** of a string.  There is no letter at the
    address of an empty one. -/
theorem countingVowelsAndConsonants_spec (ht : Tables l m) (h : Spells m a bs) (hempty : bs = [] → m a = 0)
    (hlen : bs.length < 2 ^ 31) (hfuel : 40 ≤ fuel) (hfuel' : bs.length ≤ fuel) :
    countingVowelsAndConsonants l fuel m a (BitVec.ofNat 32 bs.length) =
      some (BitVec.ofNat 32 (numVowels bs), BitVec.ofNat 32 (numConsonants bs)) := by
  unfold countingVowelsAndConsonants
  rcases eq_or_ne bs [] with rfl | hne
  · have hzero : Spells m a [0] := spells_cons.2 ⟨hempty rfl, spells_nil m _⟩
    obtain ⟨-, hrun, rfl⟩ := stringLoop_spec (n := 0) ht hzero (by simp) (by simp) (by simp) (by simp) hfuel
      (Nat.le_trans (by simp) hfuel)
    rw [List.length_nil, hrun]
    rfl
  · obtain ⟨-, hrun, rfl⟩ := stringLoop_spec ht h hne hlen (Nat.le_refl _) (Nat.le_max_left _ _) hfuel hfuel'
    rw [hrun]
    rfl

/-! ## The answer -/

/-- The bytes of the four digits. -/
def fourDigits (n : ℕ) : List Byte :=
  [n / 1000, n % 1000 / 100, n % 1000 % 100 / 10, n % 1000 % 100 % 10].map fun d => BitVec.ofNat 8 (d + 48)

/-- The string that `create_string` builds. -/
def answer (v c : ℕ) : List Byte := vow ++ fourDigits v ++ cons ++ fourDigits c ++ [0]

theorem length_answer (v c : ℕ) : (answer v c).length = 50 := rfl

/-- The buffer holds the bytes `bs`, and `s7` is the address behind them. -/
structure Writing (s : Machine) (a : Word) (bs : List Byte) (s7 : Word) (s' : Machine) : Prop where
  mem : s'.mem = storeBytes s.mem a bs
  s7 : s7 = byteAt a bs.length

theorem Writing.store {s' : Machine} {s7 : Word} (h : Writing s a bs s7 s') (hlen : bs.length < 2 ^ 32) (v : Word) :
    Writing s a (bs ++ [v.setWidth 8]) (s7 + 1) (s'.store s7 v) := by
  refine ⟨?_, ?_⟩
  · rw [Machine.store, h.mem, h.s7, sb_storeBytes hlen]
  · rw [h.s7, byteAt_succ, List.length_append, List.length_singleton]

theorem setWidth_digit {d : ℕ} : (BitVec.ofNat 32 d + 48).setWidth 8 = BitVec.ofNat 8 (d + 48) := by
  have hsum : BitVec.ofNat 32 d + 48 = BitVec.ofNat 32 (d + 48) := (BitVec.ofNat_add d 48).symm
  rw [hsum]
  apply BitVec.eq_of_toNat_eq
  simp only [BitVec.toNat_setWidth, BitVec.toNat_ofNat]
  omega

theorem Writing.digits {s' : Machine} {s7 : Word} (h : Writing s a bs s7 s') (hlen : bs.length + 4 < 2 ^ 32)
    (hn : n < 2 ^ 31) :
    Writing s a (bs ++ fourDigits n) (digits s' s7 (BitVec.ofNat 32 n)).1 (digits s' s7 (BitVec.ofNat 32 n)).2 := by
  have hdiv : div (BitVec.ofNat 32 n) 1000 = BitVec.ofNat 32 (n / 1000) := div_ofNat hn (by decide) (by decide)
  have hrem : rem (BitVec.ofNat 32 n) 1000 = BitVec.ofNat 32 (n % 1000) := rem_ofNat hn (by decide) (by decide)
  have hdiv' : div (BitVec.ofNat 32 (n % 1000)) 100 = BitVec.ofNat 32 (n % 1000 / 100) :=
    div_ofNat (by omega) (by decide) (by decide)
  have hrem' : rem (BitVec.ofNat 32 (n % 1000)) 100 = BitVec.ofNat 32 (n % 1000 % 100) :=
    rem_ofNat (by omega) (by decide) (by decide)
  have hdiv'' : div (BitVec.ofNat 32 (n % 1000 % 100)) 10 = BitVec.ofNat 32 (n % 1000 % 100 / 10) :=
    div_ofNat (by omega) (by decide) (by decide)
  have hrem'' : rem (BitVec.ofNat 32 (n % 1000 % 100)) 10 = BitVec.ofNat 32 (n % 1000 % 100 % 10) :=
    rem_ofNat (by omega) (by decide) (by decide)
  have hall := (((h.store (by omega) (BitVec.ofNat 32 (n / 1000) + 48)).store (by simp; omega)
    (BitVec.ofNat 32 (n % 1000 / 100) + 48)).store (by simp; omega)
    (BitVec.ofNat 32 (n % 1000 % 100 / 10) + 48)).store (by simp; omega)
    (BitVec.ofNat 32 (n % 1000 % 100 % 10) + 48)
  simp only [setWidth_digit, List.append_assoc] at hall
  simp only [Letters.digits, hdiv, hrem, hdiv', hrem', hdiv'', hrem'']
  exact hall

/-- A string constant is copied. -/
theorem Writing.copy {s' : Machine} {s7 : Word} (h : Writing s a bs s7 s')
    (hfit : a.toNat + (bs.length + table.length) ≤ 2 ^ 32) (htable : Spells s.mem x table)
    (hx : x.toNat + table.length ≤ a.toNat) (hne : table ≠ []) (hlen : table.length < 2 ^ 31)
    (hfuel : table.length ≤ fuel) :
    ∃ r, run (copyLoop (BitVec.ofNat 32 table.length)) fuel { s2 := x, s3 := 0, s7 := s7, machine := s' } = some r ∧
      Writing s a (bs ++ table) r.1 r.2 := by
  refine run_of_elements (i := 0) (n := table.length) (J := fun i r => r.s2 = byteAt x i ∧
    r.s3 = BitVec.ofNat 32 i ∧ Writing s a (bs ++ table.take i) r.s7 r.machine) ?_
    ⟨(byteAt_zero x).symm, rfl, by simpa using h⟩ (List.length_pos_iff.2 hne) (by omega)
  rintro i ⟨s2, s3, s7, s'⟩ hi ⟨rfl, rfl, hw⟩
  dsimp only at hw
  have hsize : (bs ++ table.take i).length = bs.length + i := by
    rw [List.length_append, List.length_take_of_le (Nat.le_of_lt hi)]
  have hbyte : lb s'.mem (byteAt x i) = (table[i]).signExtend 32 := by
    have haddr : (byteAt x i).toNat = x.toNat + i := toNat_byteAt (by omega)
    rw [lb, hw.mem, storeBytes_of_lt (by omega) (by omega), htable i hi]
  have hnext := hw.store (by omega) (lb s'.mem (byteAt x i))
  rw [hbyte, setWidth_signExtend, List.append_assoc, ← List.take_succ_eq_append_getElem hi] at hnext
  rw [copyLoop]
  dsimp only
  rw [hbyte]
  refine ⟨_, _, if_congr (slt_succ hlen (by omega)) rfl rfl, ⟨byteAt_succ x i, ofNat_succ i, hnext⟩, ?_⟩
  intro hlast
  rwa [hlast, List.take_length] at hnext

/-- **`create_string`** builds the answer behind what is there already. -/
theorem createString_spec (ht : Tables l s.mem) (hheap : l.heap.toNat ≤ s.brk.toNat)
    (hroom : s.brk.toNat + 100 ≤ 2 ^ 32) (hfuel : 23 ≤ fuel) {v c : ℕ} (hv : v < 2 ^ 31) (hc : c < 2 ^ 31) :
    ∃ s', createString l fuel s (BitVec.ofNat 32 v) (BitVec.ofNat 32 c) =
        some (s.brk, BitVec.ofNat 32 (answer v c).length, s') ∧
      s'.mem = storeBytes s.mem s.brk (answer v c) := by
  have hvow := l.vow_le
  have hcons := l.cons_le
  have hvlen : vow.length = 18 := rfl
  have hclen : cons.length = 23 := rfl
  have hdigits : ∀ k, (fourDigits k).length = 4 := fun k => rfl
  have hstart : Writing s s.brk [] s.brk (s.allocate 100).2 := ⟨rfl, (byteAt_zero _).symm⟩
  -- the buffer after each of the five parts
  obtain ⟨⟨s7, s₁⟩, hrun₁, hw₁⟩ := hstart.copy (by simp only [List.length_nil]; omega) ht.vow (by omega) (by decide)
    (by omega) (Nat.le_trans (by decide) hfuel)
  dsimp only at hw₁
  have hw₂ := hw₁.digits (by simp [hvlen]) hv
  obtain ⟨⟨s7', s₃⟩, hrun₃, hw₃⟩ := hw₂.copy (by simp [hvlen, hclen, hdigits]; omega) ht.cons (by omega) (by decide)
    (by omega) (Nat.le_trans (by decide) hfuel)
  dsimp only at hw₃
  have hw₄ := hw₃.digits (by simp [hvlen, hclen, hdigits]) hc
  have hw₅ := hw₄.store (by simp [hvlen, hclen, hdigits]) 0
  have halloc : s.allocate 100 = (s.brk, (s.allocate 100).2) := rfl
  refine ⟨(digits s₃ s7' (BitVec.ofNat 32 c)).2.store (digits s₃ s7' (BitVec.ofNat 32 c)).1 0, ?_, hw₅.mem⟩
  have h₁ : run (copyLoop 18) fuel { s2 := l.vow, s3 := 0, s7 := s.brk, machine := (s.allocate 100).2 } =
      some (s7, s₁) := hrun₁
  rw [createString, halloc]
  simp only [h₁, Option.bind_eq_bind, Option.bind_some]
  have h₃ : run (copyLoop 23) fuel
      ⟨l.cons, 0, (digits s₁ s7 (BitVec.ofNat 32 v)).1, (digits s₁ s7 (BitVec.ofNat 32 v)).2⟩ = some (s7', s₃) :=
    hrun₃
  simp only [h₃, Option.bind_some]
  rfl

end Letters
