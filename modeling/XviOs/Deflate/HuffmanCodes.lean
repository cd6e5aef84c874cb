import XviOs.Deflate.Huffman
import XviOs.Library.CanonicalCode

namespace XviOs.Deflate.HuffmanTree

open Library.CanonicalCode

variable {lengths : List Nat} {i k : Nat}

theorem lengthCount_eq (lengths : List Nat) (k : Nat) :
    lengthCount lengths k = BitVec.ofNat 16 (lengths.count k) := by
  have hfold : ∀ c : Nat → BitVec 16,
      lengths.foldl (fun count l => Function.update count l (count l + 1)) c k =
        c k + BitVec.ofNat 16 (lengths.count k) := by
    induction lengths with
    | nil => simp
    | cons l lengths ih =>
        intro c
        rw [List.foldl_cons, ih, List.count_cons]
        by_cases h : l = k
        · subst h
          simp only [Function.update_self, beq_self_eq_true, if_true, BitVec.ofNat_add, BitVec.ofNat_eq_ofNat]
          ac_rfl
        · simp [Function.update_of_ne (Ne.symm h), h]
  rw [lengthCount, hfold]
  simp

theorem ofNat_add_shiftLeft_one (a b : Nat) :
    (BitVec.ofNat 16 a + BitVec.ofNat 16 b) <<< 1 = BitVec.ofNat 16 (2 * (a + b)) := by
  rw [← BitVec.ofNat_add]
  apply BitVec.eq_of_toNat_eq
  rw [BitVec.toNat_shiftLeft, BitVec.toNat_ofNat, BitVec.toNat_ofNat, Nat.shiftLeft_eq]
  omega

/-- The symbols of length 0 are counted as well, which adds to the codes a multiple of a
power of two beyond their bits. -/
theorem initialCode_eq (lengths : List Nat) (hi : i + 1 < maxBitLength) :
    initialCode (lengthCount lengths) (i + 1) =
      BitVec.ofNat 16 (firstCode lengths (i + 1) + lengths.count 0 * 2 ^ (i + 1)) := by
  induction i with
  | zero =>
      have hsum : initialCode (lengthCount lengths) 0 + lengthCount lengths 0 =
          BitVec.ofNat 16 0 + BitVec.ofNat 16 (lengths.count 0) := by
        rw [lengthCount_eq]
        rfl
      rw [initialCode, if_pos hi, hsum, ofNat_add_shiftLeft_one, firstCode, firstCode, count, if_pos rfl]
      congr 1
      omega
  | succ i ih =>
      have hi' : i + 1 < maxBitLength := (Nat.lt_succ_self _).trans hi
      have hcount : count lengths (i + 1) = lengths.count (i + 1) := if_neg (Nat.succ_ne_zero i)
      rw [initialCode, if_pos hi, ih hi', lengthCount_eq, ofNat_add_shiftLeft_one, firstCode.eq_2 lengths (i + 1), hcount]
      congr 1
      ring

theorem length_values (lengths : List Nat) (next : Nat → BitVec 16) :
    (values lengths next).length = lengths.length := by
  induction lengths generalizing next with
  | nil => rfl
  | cons l lengths ih =>
      rw [values]
      split <;> simp [ih]

theorem values_getD (next : Nat → BitVec 16) (hi : i < lengths.length) (h0 : lengths.getD i 0 ≠ 0) :
    (values lengths next).getD i 0 = next (lengths.getD i 0) + BitVec.ofNat 16 (rank lengths i) := by
  induction lengths generalizing next i with
  | nil => simp at hi
  | cons l lengths ih =>
      cases i with
      | zero =>
          have hl : l ≠ 0 := h0
          rw [values, if_pos hl]
          simp [rank]
      | succ i =>
          rw [List.length_cons, Nat.add_lt_add_iff_right] at hi
          rw [List.getD_cons_succ] at h0
          rw [rank_cons_succ, values, List.getD_cons_succ]
          by_cases hl : l = 0
          · have hne : ¬ l = lengths.getD i 0 := fun h => h0 (h ▸ hl)
            rw [if_neg (not_not.mpr hl), List.getD_cons_succ, ih next hi h0, if_neg hne, Nat.add_zero]
          · rw [if_pos hl, List.getD_cons_succ, ih _ hi h0]
            by_cases he : l = lengths.getD i 0
            · rw [if_pos he, he, Function.update_self]
              simp only [BitVec.ofNat_add, BitVec.ofNat_eq_ofNat]
              ac_rfl
            · rw [if_neg he, Function.update_of_ne (Ne.symm he), Nat.add_zero]

/-- The bits that the tree gets for a symbol. -/
def assignedWord (lengths : List Nat) (i : Nat) : List Bool :=
  bitsOf ((values lengths (initialCode (lengthCount lengths))).getD i 0).toNat (lengths.getD i 0)

theorem assignedWord_short (hi : i < lengths.length) (h0 : lengths.getD i 0 ≠ 0)
    (hl : lengths.getD i 0 < maxBitLength) : assignedWord lengths i = codeword lengths i := by
  obtain ⟨l, hlen⟩ : ∃ l, lengths.getD i 0 = l + 1 := Nat.exists_eq_succ_of_ne_zero h0
  rw [assignedWord, codeword, code, values_getD _ hi h0]
  rw [hlen] at hl ⊢
  rw [initialCode_eq lengths hl, ← BitVec.ofNat_add]
  have hsplit : firstCode lengths (l + 1) + lengths.count 0 * 2 ^ (l + 1) + rank lengths i =
      firstCode lengths (l + 1) + rank lengths i + lengths.count 0 * 2 ^ (l + 1) := by ring
  apply bitsOf_congr
  intro k hk
  have h16 : k < 16 := hk.trans (hl.trans (by decide))
  have hmod := Nat.add_mul_mod_self_right (firstCode lengths (l + 1) + rank lengths i) (lengths.count 0) (2 ^ (l + 1))
  have hbit := congrArg (Nat.testBit · k) hmod
  simp only [Nat.testBit_mod_two_pow, decide_eq_true hk, Bool.true_and] at hbit
  rw [BitVec.testBit_toNat, BitVec.getLsbD_ofNat, decide_eq_true h16, Bool.true_and, hsplit, hbit]

theorem initialCode_longest (c : Nat → BitVec 16) : initialCode c maxBitLength = 0 := by
  rw [maxBitLength, initialCode, if_neg (by decide)]

theorem assignedWord_longest (hi : i < lengths.length) (hl : lengths.getD i 0 = maxBitLength) :
    assignedWord lengths i = bitsOf (rank lengths i) maxBitLength := by
  have h0 : lengths.getD i 0 ≠ 0 := by
    rw [hl]
    decide
  rw [assignedWord, values_getD _ hi h0, hl, initialCode_longest]
  apply bitsOf_congr
  intro k hk
  have h16 : k < 16 := hk.trans (by decide)
  have hzero : (0 : BitVec 16) + BitVec.ofNat 16 (rank lengths i) = BitVec.ofNat 16 (rank lengths i) :=
    BitVec.zero_add _
  rw [hzero, BitVec.testBit_toNat, BitVec.getLsbD_ofNat, decide_eq_true h16, Bool.true_and]

/-- The first code of the longest length is 0 only if there is no shorter code. -/
theorem firstCode_longest_eq_zero (h : ∀ l ∈ lengths, l = 0 ∨ l = maxBitLength) :
    firstCode lengths maxBitLength = 0 := by
  have hzero : ∀ l, l ≤ maxBitLength → firstCode lengths l = 0 := by
    intro l hl
    induction l with
    | zero => rfl
    | succ l ih =>
        have hcount : count lengths l = 0 := by
          unfold count
          split
          · rfl
          · rw [List.count_eq_zero]
            intro hmem
            rcases h l hmem with h0 | h15 <;> omega
        rw [firstCode, ih (by omega), hcount]
  exact hzero maxBitLength (Nat.le_refl _)

theorem firstCode_longest_pos {l : Nat} (hl : l ∈ lengths) (h0 : l ≠ 0) (h15 : l < maxBitLength) :
    0 < firstCode lengths maxBitLength := by
  have hcount : 0 < count lengths l := by
    rw [count, if_neg h0]
    exact List.count_pos_iff.mpr hl
  have hpos : ∀ k, l < k → 0 < firstCode lengths k := by
    intro k hk
    induction k with
    | zero => omega
    | succ k ih =>
        rw [firstCode]
        rcases Nat.lt_succ_iff_lt_or_eq.mp hk with h | rfl
        · have := ih h
          omega
        · omega
  exact hpos maxBitLength h15

end XviOs.Deflate.HuffmanTree
