import XviOs.Library.Bitmap
import XviOs.Library.Runs

namespace XviOs.Utility

open Library.Bitmap

/-- The size of the smallest word type that is used for a size. -/
def wordBits (n : ℕ) : ℕ := if 32 < n then 64 else if 16 < n then 32 else if 8 < n then 16 else 8

def wordCount (n : ℕ) : ℕ := (n + (wordBits n - 1)) / wordBits n

structure Bitset (n : ℕ) where
  words : List (BitVec (wordBits n))
  length_words : words.length = wordCount n

def topBits (n : ℕ) : ℕ :=
  let remainder := n % wordBits n
  if remainder = 0 then wordBits n else remainder

def topMask (n : ℕ) : BitVec (wordBits n) :=
  if topBits n = wordBits n then ~~~0#_ else 1#_ <<< topBits n - 1#_

namespace Bitset

variable {n : ℕ}

/-- The bitset without a member. -/
def empty (n : ℕ) : Bitset n := ⟨List.replicate (wordCount n) 0#_, List.length_replicate⟩

/-- The loops run over the words by their indices. -/
def mapWords (f : ℕ → BitVec (wordBits n) → BitVec (wordBits n)) (b : Bitset n) : Bitset n :=
  ⟨b.words.mapIdx f, List.length_mapIdx.trans b.length_words⟩

theorem length_zipWith_words (f : BitVec (wordBits n) → BitVec (wordBits n) → BitVec (wordBits n)) (b rhs : Bitset n) :
    (List.zipWith f b.words rhs.words).length = wordCount n := by
  rw [List.length_zipWith, b.length_words, rhs.length_words, Nat.min_self]

def zipWords (f : BitVec (wordBits n) → BitVec (wordBits n) → BitVec (wordBits n)) (b rhs : Bitset n) : Bitset n :=
  ⟨List.zipWith f b.words rhs.words, length_zipWith_words f b rhs⟩

/-- Where there is no word, the first and the last one are outside the array. -/
def ofInteger (n : ℕ) (u : BitVec 64) : Option (Bitset n) :=
  if wordCount n = 0 then none
  else some ((empty n).mapWords fun i x => if i = 0 then u.setWidth (wordBits n) else x)

def and (b rhs : Bitset n) : Bitset n := zipWords (· &&& ·) b rhs

def or (b rhs : Bitset n) : Bitset n := zipWords (· ||| ·) b rhs

def xor (b rhs : Bitset n) : Bitset n := zipWords (· ^^^ ·) b rhs

def set (b : Bitset n) : Option (Bitset n) :=
  if wordCount n = 0 then none
  else some (b.mapWords fun i _ => if i < wordCount n - 1 then ~~~0#_ else topMask n)

def setAt (b : Bitset n) (i : ℕ) (val : Bool) : Except String (Bitset n) :=
  if n ≤ i then .error "invalid bitset index"
  else .ok ⟨assignBit b.words i val, (length_assignBit val).trans b.length_words⟩

def reset (b : Bitset n) : Bitset n := b.mapWords fun _ _ => 0#_

def resetAt (b : Bitset n) (i : ℕ) : Except String (Bitset n) := b.setAt i false

def flip (b : Bitset n) : Option (Bitset n) :=
  if wordCount n = 0 then none
  else some (b.mapWords fun i x => x ^^^ if i < wordCount n - 1 then ~~~0#_ else topMask n)

def flipAt (b : Bitset n) (i : ℕ) : Except String (Bitset n) :=
  if n ≤ i then .error "out-of-bounds bitset access"
  else .ok (b.mapWords fun k x => if k = i / wordBits n then x ^^^ 1#_ <<< (i % wordBits n) else x)

def complement (b : Bitset n) : Option (Bitset n) := b.flip

def word (b : Bitset n) (i : ℕ) : BitVec (wordBits n) := b.words.getD i 0#_

def test (b : Bitset n) (i : ℕ) : Except String Bool :=
  if n ≤ i then .error "invalid bitset index"
  else .ok (b.word (i / wordBits n) &&& 1#_ <<< (i % wordBits n) != 0#_)

/-- The comparison binds tighter than the `&`. -/
def constSubscript (b : Bitset n) (i : ℕ) : Bool :=
  b.word (i / wordBits n) &&& (if 1#(wordBits n) <<< (i % wordBits n) != 0#_ then 1#_ else 0#_) != 0#_

/-- What the reference to a bit reads. -/
def subscript (b : Bitset n) (i : ℕ) : Except String Bool := b.test i

/-- `__builtin_popcount` takes an `unsigned int`. -/
def popcount {w : ℕ} (x : BitVec w) : ℕ := (List.range 32).countP fun i => (x.setWidth 32).getLsbD i

def count (b : Bitset n) : ℕ := ((List.range (wordCount n)).map fun i => popcount (b.word i)).sum

def eq (b x : Bitset n) : Bool := (List.range (wordCount n)).all fun i => b.word i == x.word i

def all (b : Bitset n) : Option Bool :=
  if wordCount n = 0 then none
  else some (((List.range (wordCount n - 1)).all fun i => b.word i == ~~~0#_) && b.word (wordCount n - 1) == topMask n)

def any (b : Bitset n) : Option Bool :=
  if wordCount n = 0 then none
  else some (((List.range (wordCount n - 1)).any fun i => b.word i != 0#_) ||
    b.word (wordCount n - 1) &&& topMask n != 0#_)

def none (b : Bitset n) : Option Bool := b.any.map not

end Bitset

/-- Operations on a family of bitsets. -/
inductive BitsetCommand (ι : Type) where
  | construct (x : ι)
  | constructFrom (x : ι) (u : BitVec 64)
  | set (x : ι)
  | setAt (x : ι) (i : ℕ) (val : Bool)
  | reset (x : ι)
  | resetAt (x : ι) (i : ℕ)
  | flip (x : ι)
  | flipAt (x : ι) (i : ℕ)
  | and (x y : ι)
  | or (x y : ι)
  | xor (x y : ι)
  | complement (x y : ι)

section Commands

variable {ι : Type} [DecidableEq ι] {n : ℕ}

/-- What throws leaves the bitset as it was. -/
def assignChecked (s : ι → Bitset n) (x : ι) : Except String (Bitset n) → ι → Bitset n
  | .ok b => Function.update s x b
  | .error _ => s

/-- None is an access outside the array. -/
def bitsetStep (s : ι → Bitset n) : BitsetCommand ι → Option (ι → Bitset n)
  | .construct x => some (Function.update s x (.empty n))
  | .constructFrom x u => (Bitset.ofInteger n u).map (Function.update s x)
  | .set x => (s x).set.map (Function.update s x)
  | .setAt x i val => some (assignChecked s x ((s x).setAt i val))
  | .reset x => some (Function.update s x (s x).reset)
  | .resetAt x i => some (assignChecked s x ((s x).resetAt i))
  | .flip x => (s x).flip.map (Function.update s x)
  | .flipAt x i => some (assignChecked s x ((s x).flipAt i))
  | .and x y => some (Function.update s x ((s x).and (s y)))
  | .or x y => some (Function.update s x ((s x).or (s y)))
  | .xor x y => some (Function.update s x ((s x).xor (s y)))
  | .complement x y => (s y).complement.map (Function.update s x)

end Commands

end XviOs.Utility

namespace XviOs.Utility

open Library.Bitmap Library.Refinement

variable {n : ℕ}

theorem wordBits_pos (n : ℕ) : 0 < wordBits n := by
  unfold wordBits
  split_ifs <;> decide

theorem topBits_le (n : ℕ) : topBits n ≤ wordBits n := by
  simp only [topBits]
  split_ifs
  · exact Nat.le_refl _
  · exact (Nat.mod_lt n (wordBits_pos n)).le

theorem topBits_pos (n : ℕ) : 0 < topBits n := by
  simp only [topBits]
  split_ifs with h
  · exact wordBits_pos n
  · exact Nat.pos_of_ne_zero h

theorem wordCount_eq (n : ℕ) : wordCount n = n / wordBits n + if n % wordBits n = 0 then 0 else 1 := by
  have hw := wordBits_pos n
  have hlt := Nat.mod_lt n hw
  have hsum : n + (wordBits n - 1) = wordBits n * (n / wordBits n) + (n % wordBits n + (wordBits n - 1)) := by
    rw [← Nat.add_assoc, Nat.div_add_mod]
  rw [wordCount, hsum, Nat.mul_add_div hw]
  congr 1
  split_ifs with h
  · exact Nat.div_eq_of_lt (by omega)
  · exact Nat.div_eq_of_lt_le (by omega) (by omega)

theorem wordCount_pos (hn : 0 < n) : 0 < wordCount n :=
  Nat.div_pos (by have := wordBits_pos n; omega) (wordBits_pos n)

/-- The used bits of the last word end where the positions do. -/
theorem size_eq (hn : 0 < n) : wordBits n * (wordCount n - 1) + topBits n = n := by
  have hcount := wordCount_eq n
  have hpos := wordCount_pos hn
  have hdiv := Nat.div_add_mod n (wordBits n)
  simp only [topBits]
  split_ifs at hcount ⊢ with h
  · rw [hcount, Nat.add_zero, ← Nat.mul_succ, Nat.succ_eq_add_one, Nat.sub_add_cancel (by omega)]
    omega
  · rw [hcount, Nat.add_sub_cancel]
    exact hdiv

theorem getLsbD_topMask (j : ℕ) : (topMask n).getLsbD j = decide (j < topBits n) := by
  unfold topMask
  split_ifs with h
  · rw [BitVec.not_zero, BitVec.getLsbD_allOnes, h]
  · have hlt : topBits n < wordBits n := lt_of_le_of_ne (topBits_le n) h
    have hone : (1#(wordBits n) <<< topBits n).toNat = 2 ^ topBits n := by
      rw [BitVec.toNat_shiftLeft, BitVec.toNat_ofNat, Nat.shiftLeft_eq,
        Nat.mod_eq_of_lt (Nat.one_lt_two_pow (wordBits_pos n).ne'), Nat.one_mul,
        Nat.mod_eq_of_lt (Nat.pow_lt_pow_right (by decide) hlt)]
    have hle : 1#(wordBits n) ≤ 1#(wordBits n) <<< topBits n := by
      rw [BitVec.le_def, hone, BitVec.toNat_ofNat, Nat.mod_eq_of_lt (Nat.one_lt_two_pow (wordBits_pos n).ne')]
      exact Nat.one_le_two_pow
    rw [BitVec.getLsbD, BitVec.toNat_sub_of_le hle, hone, BitVec.toNat_ofNat,
      Nat.mod_eq_of_lt (Nat.one_lt_two_pow (wordBits_pos n).ne'), Nat.testBit_two_pow_sub_one]

/-- The positions are those of all bits before the last word, and of the used ones in it. -/
theorem lt_iff (hn : 0 < n) (i : ℕ) :
    i < n ↔ i / wordBits n < wordCount n ∧ (i / wordBits n < wordCount n - 1 ∨ i % wordBits n < topBits n) := by
  have hw := wordBits_pos n
  have hsize := size_eq hn
  have htop := topBits_le n
  have hpos := wordCount_pos hn
  have hlt := Nat.mod_lt i hw
  have hdiv := Nat.div_add_mod i (wordBits n)
  constructor
  · intro hi
    have hword : i / wordBits n ≤ wordCount n - 1 := by
      by_contra hout
      have hmul := Nat.mul_le_mul_left (wordBits n) (Nat.succ_le_of_lt (Nat.lt_of_not_le hout))
      rw [Nat.mul_succ] at hmul
      omega
    refine ⟨by omega, ?_⟩
    obtain hlt' | heq := hword.lt_or_eq
    · exact Or.inl hlt'
    · rw [heq] at hdiv
      exact Or.inr (by omega)
  · rintro ⟨hword, hbefore | hused⟩
    · have hmul := Nat.mul_le_mul_left (wordBits n) (Nat.succ_le_of_lt hbefore)
      rw [Nat.mul_succ] at hmul
      have htop' := topBits_pos n
      omega
    · have hmul := Nat.mul_le_mul_left (wordBits n) (Nat.le_sub_one_of_lt hword)
      omega

namespace Bitset

variable {b c : Bitset n} {S T : Finset (Fin n)} {i : ℕ}

theorem bit_eq_false (h : wordCount n ≤ i / wordBits n) : bit b.words i = false := by
  rw [bit, List.getD_eq_default _ _ (b.length_words.trans_le h)]
  exact BitVec.getLsbD_zero

theorem bit_mapWords (f : ℕ → BitVec (wordBits n) → BitVec (wordBits n)) (h : i / wordBits n < wordCount n) :
    bit (b.mapWords f).words i =
      (f (i / wordBits n) (b.word (i / wordBits n))).getLsbD (i % wordBits n) := by
  have hlt : i / wordBits n < b.words.length := b.length_words ▸ h
  simp only [bit, mapWords, word, List.getD_eq_getElem?_getD, List.getElem?_mapIdx, List.getElem?_eq_getElem hlt,
    Option.map_some, Option.getD_some]

theorem bit_zipWords (f : BitVec (wordBits n) → BitVec (wordBits n) → BitVec (wordBits n))
    (h : i / wordBits n < wordCount n) :
    bit (zipWords f b c).words i =
      (f (b.word (i / wordBits n)) (c.word (i / wordBits n))).getLsbD (i % wordBits n) := by
  have hlt : i / wordBits n < b.words.length := b.length_words ▸ h
  have hlt' : i / wordBits n < c.words.length := c.length_words ▸ h
  simp only [bit, zipWords, word, List.getD_eq_getElem?_getD, List.getElem?_zipWith, List.getElem?_eq_getElem hlt,
    List.getElem?_eq_getElem hlt', Option.getD_some]

theorem getLsbD_word (b : Bitset n) (i : ℕ) : (b.word (i / wordBits n)).getLsbD (i % wordBits n) = bit b.words i := rfl

/-- The mask of a word has a one at each position, and nowhere else. -/
theorem getLsbD_mask (hn : 0 < n) (h : i / wordBits n < wordCount n) :
    (if i / wordBits n < wordCount n - 1 then ~~~0#_ else topMask n).getLsbD (i % wordBits n) = decide (i < n) := by
  have hlt := Nat.mod_lt i (wordBits_pos n)
  rw [Bool.eq_iff_iff, decide_eq_true_eq, lt_iff hn]
  split_ifs with hlast
  · rw [BitVec.not_zero, BitVec.getLsbD_allOnes, decide_eq_true_eq]
    exact iff_of_true hlt ⟨h, Or.inl hlast⟩
  · rw [getLsbD_topMask, decide_eq_true_eq]
    simp [h, hlast]

/-- Whether a position is one of the set. -/
def member (S : Finset (Fin n)) (i : ℕ) : Bool := if h : i < n then decide (⟨i, h⟩ ∈ S) else false

/-- The bits are the members of the set. There is no other bit. -/
def Represents (b : Bitset n) (S : Finset (Fin n)) : Prop := ∀ i, bit b.words i = member S i

theorem member_of_le (h : n ≤ i) : member S i = false := dif_neg (Nat.not_lt.mpr h)

theorem member_coe (i : Fin n) : member S i = decide (i ∈ S) := dif_pos i.isLt

theorem member_congr {p : Bool} (h : ∀ hi : i < n, (⟨i, hi⟩ ∈ S ↔ p = true)) (hout : n ≤ i → p = false) :
    member S i = p := by
  by_cases hi : i < n
  · rw [member, dif_pos hi, Bool.eq_iff_iff, decide_eq_true_eq, h hi]
  · rw [member_of_le (Nat.le_of_not_lt hi), hout (Nat.le_of_not_lt hi)]

theorem member_compl : member Sᶜ i = (member S i ^^ decide (i < n)) := by
  apply member_congr
  · intro hi
    simp [member, hi]
  · intro hi
    simp [member_of_le hi, hi]

theorem represents_zipWords {f : BitVec (wordBits n) → BitVec (wordBits n) → BitVec (wordBits n)}
    {g : Bool → Bool → Bool} {U : Finset (Fin n)} (hb : b.Represents S) (hc : c.Represents T)
    (hf : ∀ x y j, (f x y).getLsbD j = g (x.getLsbD j) (y.getLsbD j)) (hg : g false false = false)
    (hU : ∀ i, i ∈ U ↔ g (decide (i ∈ S)) (decide (i ∈ T)) = true) : (zipWords f b c).Represents U := by
  intro i
  have hmember : member U i = g (member S i) (member T i) := by
    apply member_congr
    · intro hi
      simp [member, hi, hU]
    · intro hi
      rw [member_of_le hi, member_of_le hi, hg]
  rw [hmember, ← hb i, ← hc i]
  obtain h | h := Nat.lt_or_ge (i / wordBits n) (wordCount n)
  · rw [bit_zipWords f h, hf, getLsbD_word, getLsbD_word]
  · rw [bit_eq_false h, bit_eq_false h, bit_eq_false h, hg]

theorem Represents.and (hb : b.Represents S) (hc : c.Represents T) : (b.and c).Represents (S ∩ T) :=
  represents_zipWords hb hc (fun x y j => BitVec.getLsbD_and) rfl fun i => by simp

theorem Represents.or (hb : b.Represents S) (hc : c.Represents T) : (b.or c).Represents (S ∪ T) :=
  represents_zipWords hb hc (fun x y j => BitVec.getLsbD_or) rfl fun i => by simp

theorem Represents.xor (hb : b.Represents S) (hc : c.Represents T) : (b.xor c).Represents (symmDiff S T) :=
  represents_zipWords hb hc (fun x y j => BitVec.getLsbD_xor) rfl fun i => by
    by_cases hS : i ∈ S <;> by_cases hT : i ∈ T <;> simp [Finset.mem_symmDiff, hS, hT]

theorem represents_empty (n : ℕ) : (empty n).Represents ∅ := by
  intro i
  rw [member_congr (S := ∅) (p := false) (by simp) fun _ => rfl]
  obtain h | h := Nat.lt_or_ge (i / wordBits n) (wordCount n)
  · simp [bit, empty, h]
  · exact bit_eq_false h

theorem represents_reset (b : Bitset n) : b.reset.Represents ∅ := by
  intro i
  rw [member_congr (S := ∅) (p := false) (by simp) fun _ => rfl]
  obtain h | h := Nat.lt_or_ge (i / wordBits n) (wordCount n)
  · rw [reset, bit_mapWords _ h, BitVec.getLsbD_zero]
  · exact bit_eq_false h

theorem set_represents (hn : 0 < n) (b : Bitset n) : ∃ c, b.set = some c ∧ c.Represents Finset.univ := by
  refine ⟨_, if_neg (wordCount_pos hn).ne', fun i => ?_⟩
  rw [member_congr (p := decide (i < n)) (by simp) (by simp)]
  obtain h | h := Nat.lt_or_ge (i / wordBits n) (wordCount n)
  · rw [bit_mapWords _ h, getLsbD_mask hn h]
  · rw [bit_eq_false h, eq_comm, decide_eq_false_iff_not, lt_iff hn]
    omega

theorem Represents.flip (hn : 0 < n) (hb : b.Represents S) : ∃ c, b.flip = some c ∧ c.Represents Sᶜ := by
  refine ⟨_, if_neg (wordCount_pos hn).ne', fun i => ?_⟩
  rw [member_compl, ← hb i]
  obtain h | h := Nat.lt_or_ge (i / wordBits n) (wordCount n)
  · rw [bit_mapWords _ h, BitVec.getLsbD_xor, getLsbD_mask hn h, getLsbD_word]
  · have hi : ¬ i < n := by
      rw [lt_iff hn]
      omega
    rw [bit_eq_false h, bit_eq_false h, decide_eq_false hi, Bool.xor_false]

theorem div_lt_wordCount (k : Fin n) : (k : ℕ) / wordBits n < wordCount n :=
  ((lt_iff (Nat.zero_lt_of_lt k.isLt) k).mp k.isLt).1

theorem Represents.setAt (hb : b.Represents S) (k : Fin n) (val : Bool) :
    ∃ c, b.setAt k val = .ok c ∧ c.Represents (if val then insert k S else S.erase k) := by
  refine ⟨_, if_neg (Nat.not_le.mpr k.isLt), fun i => ?_⟩
  rw [bit_assignBit (wordBits_pos n) (b.length_words ▸ div_lt_wordCount k), hb i, eq_comm]
  apply member_congr
  · intro hi
    have hki : (⟨i, hi⟩ : Fin n) = k ↔ (k : ℕ) = i := by rw [Fin.ext_iff, eq_comm]
    cases val <;> by_cases hk : (k : ℕ) = i <;> simp [member, hi, hki, hk]
  · intro hi
    rw [if_neg (by omega), member_of_le hi]

theorem Represents.flipAt (hb : b.Represents S) (k : Fin n) :
    ∃ c, b.flipAt k = .ok c ∧ c.Represents (symmDiff S {k}) := by
  refine ⟨_, if_neg (Nat.not_le.mpr k.isLt), fun i => ?_⟩
  have hmember : member (symmDiff S {k}) i = (member S i ^^ decide ((k : ℕ) = i)) := by
    apply member_congr
    · intro hi
      have hki : (⟨i, hi⟩ : Fin n) = k ↔ (k : ℕ) = i := by rw [Fin.ext_iff, eq_comm]
      by_cases hk : (k : ℕ) = i <;> simp [member, hi, Finset.mem_symmDiff, hki, hk]
    · intro hi
      rw [member_of_le hi, decide_eq_false (by omega), Bool.xor_false]
  rw [hmember, ← hb i]
  have hw := wordBits_pos n
  obtain h | h := Nat.lt_or_ge (i / wordBits n) (wordCount n)
  · rw [bit_mapWords _ h]
    split_ifs with hword
    · rw [BitVec.getLsbD_xor, getLsbD_word, getLsbD_one_shiftLeft (Nat.mod_lt _ hw) (Nat.mod_lt _ hw)]
      congr 1
      rw [decide_eq_decide]
      constructor
      · intro hm
        rw [← Nat.div_add_mod (k : ℕ) (wordBits n), ← hword, hm, Nat.div_add_mod]
      · intro hk
        rw [hk]
    · have hk : (k : ℕ) ≠ i := by
        rintro rfl
        exact hword rfl
      rw [getLsbD_word, decide_eq_false hk, Bool.xor_false]
  · have hk : (k : ℕ) ≠ i := by
      rintro rfl
      exact absurd (div_lt_wordCount k) (Nat.not_lt.mpr h)
    rw [bit_eq_false h, bit_eq_false h, decide_eq_false hk, Bool.xor_false]

/-- The value of the constructor has no bit in its word behind the last position. -/
def Fits (n : ℕ) (u : BitVec 64) : Prop := u.toNat % 2 ^ wordBits n < 2 ^ n

def bitsOf (n : ℕ) (u : BitVec 64) : Finset (Fin n) := Finset.univ.filter fun i => u.getLsbD i = true

theorem fits_iff (u : BitVec 64) : Fits n u ↔ ∀ i, n ≤ i → i < wordBits n → u.getLsbD i = false := by
  constructor
  · intro h i hi hiw
    have hbit := Nat.testBit_lt_two_pow (h.trans_le (Nat.pow_le_pow_right (by decide) hi))
    rw [Nat.testBit_mod_two_pow, decide_eq_true hiw, Bool.true_and] at hbit
    exact hbit
  · intro h
    apply Nat.lt_pow_two_of_testBit
    intro i hi
    rw [Nat.testBit_mod_two_pow, Bool.and_eq_false_iff]
    by_cases hiw : i < wordBits n
    · exact Or.inr (h i hi hiw)
    · exact Or.inl (decide_eq_false hiw)

theorem ofInteger_represents_iff (hn : 0 < n) (u : BitVec 64) :
    (∃ b, ofInteger n u = some b ∧ b.Represents (bitsOf n u)) ↔ Fits n u := by
  have hpos := wordCount_pos hn
  have hw := wordBits_pos n
  have hbit : ∀ i, bit ((empty n).mapWords fun i x => if i = 0 then u.setWidth (wordBits n) else x).words i =
      (decide (i < wordBits n) && u.getLsbD i) := by
    intro i
    obtain h | h := Nat.lt_or_ge i (wordBits n)
    · have hdiv : i / wordBits n = 0 := Nat.div_eq_of_lt h
      rw [bit_mapWords _ (by omega), if_pos hdiv, BitVec.getLsbD_setWidth, Nat.mod_eq_of_lt h]
    · have hdiv : i / wordBits n ≠ 0 := (Nat.div_pos h hw).ne'
      rw [decide_eq_false (Nat.not_lt.mpr h), Bool.false_and]
      obtain hword | hword := Nat.lt_or_ge (i / wordBits n) (wordCount n)
      · rw [bit_mapWords _ hword, if_neg hdiv, getLsbD_word, represents_empty n i,
          member_congr (S := ∅) (p := false) (by simp) fun _ => rfl]
      · exact bit_eq_false hword
  have hwide : ∀ i, i < n → wordBits n ≤ i → u.getLsbD i = false := by
    intro i hi hiw
    apply BitVec.getLsbD_of_ge
    unfold wordBits at hiw
    split_ifs at hiw <;> omega
  have hmember : ∀ i, member (bitsOf n u) i = (decide (i < n) && u.getLsbD i) := by
    intro i
    apply member_congr
    · intro hi
      simp [bitsOf, hi]
    · intro hi
      rw [decide_eq_false (Nat.not_lt.mpr hi), Bool.false_and]
  have hrepr : (∃ b, ofInteger n u = some b ∧ b.Represents (bitsOf n u)) ↔
      ∀ i, (decide (i < wordBits n) && u.getLsbD i) = (decide (i < n) && u.getLsbD i) := by
    simp only [ofInteger, if_neg hpos.ne', Option.some.injEq, exists_eq_left', Represents, hbit, hmember]
  rw [hrepr, fits_iff]
  constructor
  · intro h i hi hiw
    have hi' := h i
    rwa [decide_eq_true hiw, Bool.true_and, decide_eq_false (Nat.not_lt.mpr hi), Bool.false_and] at hi'
  · intro h i
    by_cases hi : i < n <;> by_cases hiw : i < wordBits n
    · rw [decide_eq_true hi, decide_eq_true hiw]
    · rw [hwide i hi (Nat.le_of_not_lt hiw), Bool.and_false, Bool.and_false]
    · rw [h i (Nat.le_of_not_lt hi) hiw, Bool.and_false, Bool.and_false]
    · rw [decide_eq_false hi, decide_eq_false hiw]

theorem Represents.test (hb : b.Represents S) (k : Fin n) : b.test k = .ok (decide (k ∈ S)) := by
  rw [Bitset.test, if_neg (Nat.not_le.mpr k.isLt), and_one_shiftLeft_ne_zero _ (Nat.mod_lt _ (wordBits_pos n)),
    getLsbD_word, hb k, member_coe]

/-- The subscript of a constant bitset reads the first bit of the word. -/
theorem Represents.constSubscript (hb : b.Represents S) (k : ℕ) :
    b.constSubscript k = member S (wordBits n * (k / wordBits n)) := by
  have hw := wordBits_pos n
  have hlt := Nat.mod_lt k hw
  have hone : (1#(wordBits n) <<< (k % wordBits n) != 0#_) = true := by
    have hbit := and_one_shiftLeft_ne_zero (BitVec.allOnes (wordBits n)) hlt
    rwa [BitVec.allOnes_and, BitVec.getLsbD_allOnes, decide_eq_true hlt] at hbit
  have hfirst := and_one_shiftLeft_ne_zero (b.word (k / wordBits n)) hw
  rw [BitVec.shiftLeft_zero] at hfirst
  have hread := hb (wordBits n * (k / wordBits n))
  rw [← getLsbD_word, Nat.mul_div_cancel_left _ hw, Nat.mul_mod_right] at hread
  rw [Bitset.constSubscript, if_pos hone, hfirst, hread]

theorem word_ext {x : BitVec (wordBits n)} {k : ℕ}
    (h : ∀ i, i / wordBits n = k → bit b.words i = x.getLsbD (i % wordBits n)) : b.word k = x := by
  apply BitVec.eq_of_getLsbD_eq
  intro j hj
  have hw := wordBits_pos n
  have hdiv : (wordBits n * k + j) / wordBits n = k := by
    rw [Nat.mul_add_div hw, Nat.div_eq_of_lt hj, Nat.add_zero]
  have hmod : (wordBits n * k + j) % wordBits n = j := by rw [Nat.mul_add_mod, Nat.mod_eq_of_lt hj]
  have hbit := h (wordBits n * k + j) hdiv
  rwa [← getLsbD_word, hdiv, hmod] at hbit

theorem member_injective : Function.Injective (member : Finset (Fin n) → ℕ → Bool) := by
  intro S T h
  ext i
  have hi := congrFun h i
  rwa [member_coe, member_coe, decide_eq_decide] at hi

theorem Represents.eq (hb : b.Represents S) (hc : c.Represents T) : b.eq c = decide (S = T) := by
  rw [Bool.eq_iff_iff, decide_eq_true_eq, Bitset.eq, List.all_eq_true]
  constructor
  · intro h
    apply member_injective
    funext i
    rw [← hb i, ← hc i]
    obtain hi | hi := Nat.lt_or_ge (i / wordBits n) (wordCount n)
    · rw [← getLsbD_word, ← getLsbD_word, beq_iff_eq.mp (h _ (List.mem_range.mpr hi))]
    · rw [bit_eq_false hi, bit_eq_false hi]
  · rintro rfl k -
    apply beq_iff_eq.mpr
    apply word_ext
    rintro i rfl
    rw [getLsbD_word, hb i, hc i]

theorem Represents.all (hn : 0 < n) (hb : b.Represents S) : b.all = some (decide (S = Finset.univ)) := by
  have hpos := wordCount_pos hn
  rw [Bitset.all, if_neg hpos.ne', Option.some.injEq, Bool.eq_iff_iff, decide_eq_true_eq, Bool.and_eq_true,
    List.all_eq_true, beq_iff_eq]
  constructor
  · rintro ⟨hbefore, hlast⟩
    apply member_injective
    funext i
    rw [← hb i, member_congr (S := Finset.univ) (p := decide (i < n)) (by simp) (by simp)]
    obtain h | h := Nat.lt_or_ge (i / wordBits n) (wordCount n)
    · rw [← getLsbD_mask hn h, ← getLsbD_word]
      split_ifs with hi
      · rw [beq_iff_eq.mp (hbefore _ (List.mem_range.mpr hi))]
      · rw [show i / wordBits n = wordCount n - 1 by omega, hlast]
    · rw [bit_eq_false h, eq_comm, decide_eq_false_iff_not, lt_iff hn]
      omega
  · rintro rfl
    have hmask : ∀ k, k < wordCount n → b.word k = if k < wordCount n - 1 then ~~~0#_ else topMask n := by
      intro k hk
      apply word_ext
      rintro i rfl
      rw [getLsbD_mask hn hk, hb i, member_congr (S := Finset.univ) (p := decide (i < n)) (by simp) (by simp)]
    refine ⟨fun k hk => ?_, ?_⟩
    · rw [List.mem_range] at hk
      rw [beq_iff_eq, hmask k (by omega), if_pos hk]
    · rw [hmask _ (by omega), if_neg (Nat.lt_irrefl _)]

theorem Represents.any (hn : 0 < n) (hb : b.Represents S) : b.any = some (decide S.Nonempty) := by
  have hpos := wordCount_pos hn
  rw [Bitset.any, if_neg hpos.ne', Option.some.injEq]
  by_cases hS : S.Nonempty
  · obtain ⟨k, hk⟩ := hS
    have hword := ((lt_iff hn k).mp k.isLt).2
    have hbit : (b.word (k / wordBits n)).getLsbD (k % wordBits n) = true := by
      rw [getLsbD_word, hb k, member_coe, decide_eq_true hk]
    rw [decide_eq_true ⟨k, hk⟩, Bool.or_eq_true, List.any_eq_true]
    by_cases hlast : (k : ℕ) / wordBits n < wordCount n - 1
    · refine Or.inl ⟨k / wordBits n, List.mem_range.mpr hlast, ?_⟩
      rw [bne_iff_ne]
      intro hzero
      rw [hzero, BitVec.getLsbD_zero] at hbit
      cases hbit
    · have hdiv := div_lt_wordCount k
      rw [show (k : ℕ) / wordBits n = wordCount n - 1 by omega] at hbit
      rw [bne_iff_ne]
      refine Or.inr fun hzero => ?_
      have hand := congrArg (fun x => BitVec.getLsbD x (k % wordBits n)) hzero
      simp only [BitVec.getLsbD_and, hbit, getLsbD_topMask, BitVec.getLsbD_zero, Bool.true_and,
        decide_eq_false_iff_not] at hand
      exact hand (hword.resolve_left hlast)
  · rw [Finset.not_nonempty_iff_eq_empty] at hS
    have hzero : ∀ k, b.word k = 0#_ := by
      intro k
      apply word_ext
      intro i _
      rw [hb i, hS, BitVec.getLsbD_zero, member_congr (p := false) (by simp) fun _ => rfl]
    rw [hS, decide_eq_false (by simp), Bool.or_eq_false_iff, hzero, BitVec.zero_and]
    refine ⟨?_, bne_self_eq_false _⟩
    rw [List.any_eq_false]
    intro k _
    rw [hzero, bne_self_eq_false]
    exact Bool.false_ne_true

theorem Represents.none (hn : 0 < n) (hb : b.Represents S) : b.none = some (decide (S = ∅)) := by
  simp only [Bitset.none, hb.any hn, Option.map_some, ← decide_not, Finset.not_nonempty_iff_eq_empty]

/-- Only the first 32 bits of each word are counted. -/
theorem Represents.count (hb : b.Represents S) : b.count = (S.filter fun i : Fin n => (i : ℕ) % wordBits n < 32).card := by
  have hw := wordBits_pos n
  have hmaps : ∀ i ∈ S.filter fun i : Fin n => (i : ℕ) % wordBits n < 32,
      (i : ℕ) / wordBits n ∈ Finset.range (wordCount n) :=
    fun i _ => Finset.mem_range.mpr (div_lt_wordCount i)
  rw [Finset.card_eq_sum_card_fiberwise hmaps]
  change ∑ k ∈ Finset.range (wordCount n), popcount (b.word k) = _
  apply Finset.sum_congr rfl
  intro k hk
  have hpop : popcount (b.word k) = ((Finset.range 32).filter fun j => (b.word k).getLsbD j = true).card := by
    have hrange : popcount (b.word k) = ((List.range 32).filter fun j => (b.word k).getLsbD j).length := by
      rw [popcount, List.countP_eq_length_filter]
      congr 1
      apply List.filter_congr
      intro j hj
      rw [BitVec.getLsbD_setWidth, decide_eq_true (List.mem_range.mp hj), Bool.true_and]
    rw [hrange]
    simp only [Finset.card, Finset.filter, Finset.range, Multiset.range, Multiset.filter_coe, Multiset.coe_card,
      Bool.decide_eq_true]
  rw [hpop, eq_comm]
  apply Finset.card_bij fun (i : Fin n) _ => (i : ℕ) % wordBits n
  · intro i hi
    rw [Finset.mem_filter, Finset.mem_filter] at hi
    obtain ⟨⟨hmem, hlow⟩, rfl⟩ := hi
    rw [Finset.mem_filter, Finset.mem_range, getLsbD_word, hb i, member_coe]
    exact ⟨hlow, decide_eq_true hmem⟩
  · intro i hi j hj hij
    rw [Finset.mem_filter] at hi hj
    apply Fin.ext
    rw [← Nat.div_add_mod (i : ℕ) (wordBits n), ← Nat.div_add_mod (j : ℕ) (wordBits n), hi.2, hj.2, hij]
  · intro j hj
    rw [Finset.mem_filter, Finset.mem_range] at hj
    have hjw : j < wordBits n := by
      by_contra hout
      rw [BitVec.getLsbD_of_ge _ _ (Nat.le_of_not_lt hout)] at hj
      exact Bool.false_ne_true hj.2
    have hdiv : (wordBits n * k + j) / wordBits n = k := by
      rw [Nat.mul_add_div hw, Nat.div_eq_of_lt hjw, Nat.add_zero]
    have hmod : (wordBits n * k + j) % wordBits n = j := by rw [Nat.mul_add_mod, Nat.mod_eq_of_lt hjw]
    have hbit := hb (wordBits n * k + j)
    rw [← getLsbD_word, hdiv, hmod, hj.2] at hbit
    have hlt : wordBits n * k + j < n := by
      by_contra hout
      rw [member_of_le (Nat.le_of_not_lt hout)] at hbit
      cases hbit
    refine ⟨⟨wordBits n * k + j, hlt⟩, ?_, hmod⟩
    rw [Finset.mem_filter, Finset.mem_filter]
    refine ⟨⟨?_, ?_⟩, hdiv⟩
    · have hcoe := member_coe (S := S) ⟨wordBits n * k + j, hlt⟩
      rw [hbit.symm, eq_comm, decide_eq_true_eq] at hcoe
      exact hcoe
    · rw [hmod]
      exact hj.1

/-- The first position in the word of another one. -/
def firstOfWord (k : Fin n) : Fin n :=
  ⟨wordBits n * (k / wordBits n), (Nat.mul_div_le k (wordBits n)).trans_lt k.isLt⟩

/-- The queries say what the set is like. The count and the subscript of a constant bitset do so for some sets only. -/
structure Answers (b : Bitset n) (S : Finset (Fin n)) : Prop where
  test : ∀ k : Fin n, b.test k = .ok (decide (k ∈ S))
  subscript : ∀ k : Fin n, b.subscript k = .ok (decide (k ∈ S))
  constSubscript : ∀ k : Fin n, b.constSubscript k = decide (k ∈ S) ↔ (firstOfWord k ∈ S ↔ k ∈ S)
  count : b.count = S.card ↔ ∀ k ∈ S, (k : ℕ) % wordBits n < 32
  all : b.all = some (decide (S = Finset.univ))
  any : b.any = some (decide S.Nonempty)
  none : b.none = some (decide (S = ∅))

theorem Represents.answers (hn : 0 < n) (hb : b.Represents S) : Answers b S := by
  refine ⟨hb.test, hb.test, fun k => ?_, ?_, hb.all hn, hb.any hn, hb.none hn⟩
  · have hfirst := member_coe (S := S) (firstOfWord k)
    rw [hb.constSubscript, show member S (wordBits n * (k / wordBits n)) = _ from hfirst, decide_eq_decide]
  · rw [hb.count, Finset.card_filter_eq_iff]

end Bitset

section Commands

variable {ι : Type} [DecidableEq ι]

open Bitset

/-- The same operations on sets. A position that is out of range changes nothing. -/
def setStep (s : ι → Finset (Fin n)) : BitsetCommand ι → ι → Finset (Fin n)
  | .construct x => Function.update s x ∅
  | .constructFrom x u => Function.update s x (bitsOf n u)
  | .set x => Function.update s x Finset.univ
  | .setAt x i val =>
    if h : i < n then Function.update s x (if val then insert ⟨i, h⟩ (s x) else (s x).erase ⟨i, h⟩) else s
  | .reset x => Function.update s x ∅
  | .resetAt x i => if h : i < n then Function.update s x ((s x).erase ⟨i, h⟩) else s
  | .flip x => Function.update s x (s x)ᶜ
  | .flipAt x i => if h : i < n then Function.update s x (symmDiff (s x) {⟨i, h⟩}) else s
  | .and x y => Function.update s x (s x ∩ s y)
  | .or x y => Function.update s x (s x ∪ s y)
  | .xor x y => Function.update s x (symmDiff (s x) (s y))
  | .complement x y => Function.update s x (s y)ᶜ

/-- A construction from an integer leaves no bit behind the last position. -/
def Contained (n : ℕ) : BitsetCommand ι → Prop
  | .constructFrom _ u => Fits n u
  | _ => True

theorem represents_update {s : ι → Bitset n} {S : ι → Finset (Fin n)} (h : ∀ x, (s x).Represents (S x)) {b : Bitset n}
    {T : Finset (Fin n)} (hb : b.Represents T) (x : ι) :
    ∀ y, (Function.update s x b y).Represents (Function.update S x T y) := by
  intro y
  by_cases hxy : y = x
  · rw [hxy, Function.update_self, Function.update_self]
    exact hb
  · rw [Function.update_of_ne hxy, Function.update_of_ne hxy]
    exact h y

theorem bitsetStep_refines (hn : 0 < n) (S : ι → Finset (Fin n)) (s : ι → Bitset n) (c : BitsetCommand ι)
    (h : ∀ x, (s x).Represents (S x)) (hc : Contained n c) :
    ∃ t, bitsetStep s c = some t ∧ ∀ x, (t x).Represents (setStep S c x) := by
  have hsetAt : ∀ (x : ι) (i : ℕ) (val : Bool), ∃ t, bitsetStep s (.setAt x i val) = some t ∧
      ∀ y, (t y).Represents (setStep S (.setAt x i val) y) := by
    intro x i val
    refine ⟨_, rfl, ?_⟩
    by_cases hi : i < n
    · obtain ⟨b, heq, hb⟩ := (h x).setAt ⟨i, hi⟩ val
      rw [setStep, dif_pos hi, heq]
      exact represents_update h hb x
    · rw [setStep, dif_neg hi, Bitset.setAt, if_pos (Nat.le_of_not_lt hi)]
      exact h
  cases c with
  | construct x => exact ⟨_, rfl, represents_update h (represents_empty n) x⟩
  | constructFrom x u =>
    obtain ⟨b, heq, hb⟩ := (ofInteger_represents_iff hn u).mpr hc
    exact ⟨_, by rw [bitsetStep, heq, Option.map_some], represents_update h hb x⟩
  | set x =>
    obtain ⟨b, heq, hb⟩ := set_represents hn (s x)
    exact ⟨_, by rw [bitsetStep, heq, Option.map_some], represents_update h hb x⟩
  | setAt x i val => exact hsetAt x i val
  | reset x => exact ⟨_, rfl, represents_update h (represents_reset (s x)) x⟩
  | resetAt x i => exact hsetAt x i false
  | flip x =>
    obtain ⟨b, heq, hb⟩ := (h x).flip hn
    exact ⟨_, by rw [bitsetStep, heq, Option.map_some], represents_update h hb x⟩
  | flipAt x i =>
    refine ⟨_, rfl, ?_⟩
    by_cases hi : i < n
    · obtain ⟨b, heq, hb⟩ := (h x).flipAt ⟨i, hi⟩
      rw [setStep, dif_pos hi, heq]
      exact represents_update h hb x
    · rw [setStep, dif_neg hi, Bitset.flipAt, if_pos (Nat.le_of_not_lt hi)]
      exact h
  | and x y => exact ⟨_, rfl, represents_update h ((h x).and (h y)) x⟩
  | or x y => exact ⟨_, rfl, represents_update h ((h x).or (h y)) x⟩
  | xor x y => exact ⟨_, rfl, represents_update h ((h x).xor (h y)) x⟩
  | complement x y =>
    obtain ⟨b, heq, hb⟩ := (h y).flip hn
    exact ⟨_, by rw [bitsetStep, complement, heq, Option.map_some], represents_update h hb x⟩

def runBitsets (n : ℕ) (cs : List (BitsetCommand ι)) : Option (ι → Bitset n) :=
  cs.foldlM bitsetStep fun _ => Bitset.empty n

def runSets (n : ℕ) (cs : List (BitsetCommand ι)) : ι → Finset (Fin n) := cs.foldl setStep fun _ => ∅

/-- After every run whose constructions are contained, the bitsets answer like the sets. -/
theorem bitset_refines (hn : 0 < n) (cs : List (BitsetCommand ι)) (hcs : ∀ c ∈ cs, Contained n c) :
    ∃ s, runBitsets n cs = some s ∧ (∀ x, Answers (s x) (runSets n cs x)) ∧
      ∀ x y, (s x).eq (s y) = decide (runSets n cs x = runSets n cs y) := by
  obtain ⟨s, hrun, hrepr⟩ := run_refines (bitsetStep_refines hn) (a := fun _ : ι => ∅)
    (s := fun _ => Bitset.empty n) (fun _ => represents_empty n) (allAllowed_of_forall hcs)
  exact ⟨s, hrun, fun x => (hrepr x).answers hn, fun x y => (hrepr x).eq (hrepr y)⟩

theorem bitset_refines_nine :
    ∃ s, runBitsets 9 [.constructFrom () 511#64, .flipAt () 8] = some s ∧
      (∀ x, Answers (s x) (runSets 9 [.constructFrom () 511#64, .flipAt () 8] x)) ∧
      ∀ x y, (s x).eq (s y) = decide (runSets 9 [.constructFrom () 511#64, .flipAt () 8] x =
        runSets 9 [.constructFrom () 511#64, .flipAt () 8] y) := by
  apply bitset_refines (by decide)
  intro c hc
  obtain rfl | rfl : c = .constructFrom () 511#64 ∨ c = .flipAt () 8 := by simpa using hc
  · exact show 511 % 2 ^ 16 < 2 ^ 9 by decide
  · trivial

theorem bitset_miscounts :
    (runBitsets 33 [.setAt () 32 true]).map (fun s => (s ()).count) = some 0 ∧
      (runSets 33 [.setAt () 32 true] ()).card = 1 := by
  constructor <;> decide

end Commands

end XviOs.Utility
