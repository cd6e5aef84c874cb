import XviOs.Library.Bitmap

namespace XviOs.Pool

open Library.Bitmap

/-- A pool of `blockCount` blocks at the address `pool`, with a bit for each block. The
pool and its bitmap fit the address space; a word has 64 digits. -/
structure PoolHeader where
  blockSize : Nat
  blockCount : Nat
  pool : Nat
  bitmap : List (BitVec 64)
  freeCount : Nat
  blockSize_pos : 0 < blockSize
  pool_pos : 0 < pool
  blockCount_le : blockCount ≤ bitmap.length * 64
  fits : pool + blockCount * blockSize + 8 * bitmap.length ≤ 2 ^ 64

namespace PoolHeader

variable (h : PoolHeader)

def bitmapLength : Nat := (h.blockCount + 8 * 8 - 1) % 2 ^ 64 / (8 * 8)

def indexToBlock (i : Nat) : Nat := (h.pool + i * h.blockSize) % 2 ^ 64

def blockToIndex (block : Nat) : Nat := (block + 2 ^ 64 - h.pool) % 2 ^ 64 / h.blockSize

/-- `m_bitmap[i] |= 1 << offset`, and the free count becomes `n`. -/
def mark (i offset n : Nat) : PoolHeader :=
  { h with
    bitmap := h.bitmap.modify i (· ||| 1#64 <<< offset)
    freeCount := n
    blockCount_le := by simpa using h.blockCount_le
    fits := by simpa using h.fits }

/-- The scan from word `i` on, with `n` words to go: the block, or 0, and the pool after it. -/
def allocateFrom : Nat → Nat → Nat × PoolHeader
  | 0, _ => (0, h)
  | n + 1, i =>
    let offset := countrOne (h.bitmap.getD i 0)
    if offset < 64 then
      let blockIndex := offset + i * 64
      if h.blockCount ≤ blockIndex then (0, h)
      else (h.indexToBlock blockIndex, h.mark i offset ((h.freeCount + 2 ^ 64 - 1) % 2 ^ 64))
    else allocateFrom n (i + 1)

def allocate : Nat × PoolHeader := h.allocateFrom h.bitmapLength 0

/-- The bit of the block is set once more, where the source means to clear it. -/
def free (block : Nat) : PoolHeader :=
  let index := h.blockToIndex block
  h.mark (index / 64) (index % 64) ((h.freeCount + 1) % 2 ^ 64)

variable {h} {i n block : Nat}

section Mark

variable {offset : Nat}

theorem mark_bitmap : (h.mark i offset n).bitmap = h.bitmap.modify i (· ||| 1#64 <<< offset) := rfl

theorem mark_freeCount : (h.mark i offset n).freeCount = n := rfl

theorem mark_blockCount : (h.mark i offset n).blockCount = h.blockCount := rfl

theorem mark_eq (ho : offset < 64) : (h.mark i offset n).bitmap = setBit h.bitmap (offset + i * 64) := by
  have hd : (offset + i * 64) / 64 = i := by omega
  have hm : (offset + i * 64) % 64 = offset := by omega
  rw [mark_bitmap, setBit, hd, hm]

end Mark

theorem bitmapLength_eq : h.bitmapLength = (h.blockCount + 63) / 64 := by
  have hs := Nat.le_mul_of_pos_right h.blockCount h.blockSize_pos
  have hf := h.fits
  have hp := h.pool_pos
  have hb := h.blockCount_le
  rw [bitmapLength, Nat.mod_eq_of_lt (by omega)]
  rfl

theorem indexToBlock_eq (hi : i < h.blockCount) : h.indexToBlock i = h.pool + i * h.blockSize := by
  have hs : (i + 1) * h.blockSize ≤ h.blockCount * h.blockSize := Nat.mul_le_mul_right _ hi
  have hf := h.fits
  have hz := h.blockSize_pos
  rw [Nat.add_mul] at hs
  rw [indexToBlock, Nat.mod_eq_of_lt (by omega)]

theorem indexToBlock_ne_zero (hi : i < h.blockCount) : h.indexToBlock i ≠ 0 := by
  have hp := h.pool_pos
  rw [indexToBlock_eq hi]
  omega

theorem blockToIndex_indexToBlock (hi : i < h.blockCount) : h.blockToIndex (h.indexToBlock i) = i := by
  have hs : i * h.blockSize ≤ h.blockCount * h.blockSize := Nat.mul_le_mul_right _ hi.le
  have hf := h.fits
  have hp := h.pool_pos
  have hsub : h.pool + i * h.blockSize + 2 ^ 64 - h.pool = i * h.blockSize + 2 ^ 64 := by omega
  rw [blockToIndex, indexToBlock_eq hi, hsub, Nat.add_mod_right, Nat.mod_eq_of_lt (by omega)]
  exact Nat.mul_div_cancel i h.blockSize_pos

theorem free_indexToBlock (hi : i < h.blockCount) :
    h.free (h.indexToBlock i) = h.mark (i / 64) (i % 64) ((h.freeCount + 1) % 2 ^ 64) := by
  simp only [free, blockToIndex_indexToBlock hi]

theorem index_div_lt (hi : i < h.blockCount) : i / 64 < h.bitmap.length := by
  have hb := h.blockCount_le
  omega

/-- What `allocate` does: it takes the first clear bit, if that is the bit of a block. -/
theorem allocateFrom_cases {i : Nat} (hlow : ∀ j < i * 64, j < h.blockCount → bit h.bitmap j = true)
    (hn : h.blockCount ≤ (i + n) * 64) :
    (h.allocateFrom n i = (0, h) ∧ ∀ j < h.blockCount, bit h.bitmap j = true) ∨
    ∃ k h', k < h.blockCount ∧ bit h.bitmap k = false ∧ h'.bitmap = setBit h.bitmap k ∧
      h'.freeCount = (h.freeCount + 2 ^ 64 - 1) % 2 ^ 64 ∧ h'.blockCount = h.blockCount ∧
      h'.blockSize = h.blockSize ∧ h'.pool = h.pool ∧ h.allocateFrom n i = (h.indexToBlock k, h') := by
  induction n generalizing i with
  | zero => exact .inl ⟨rfl, fun j hj => hlow j (by simpa using hj.trans_le hn) hj⟩
  | succ n ih =>
      have hword : ∀ j < 64, bit h.bitmap (j + i * 64) = (h.bitmap.getD i 0).getLsbD j := by
        intro j hj
        have hd : (j + i * 64) / 64 = i := by omega
        have hm : (j + i * 64) % 64 = j := by omega
        rw [bit, hd, hm]
      by_cases ho : countrOne (h.bitmap.getD i 0) < 64
      · by_cases hb : h.blockCount ≤ countrOne (h.bitmap.getD i 0) + i * 64
        · refine .inl ⟨by simp only [allocateFrom, if_pos ho, if_pos hb], fun j hj => ?_⟩
          by_cases hji : j < i * 64
          · exact hlow j hji hj
          · have hbit := getLsbD_of_lt_countrOne (show j - i * 64 < countrOne (h.bitmap.getD i 0) by omega)
            rwa [← hword _ (by omega), Nat.sub_add_cancel (by omega)] at hbit
        · refine .inr ⟨_, _, not_le.mp hb, ?_, mark_eq ho, rfl, rfl, rfl, rfl,
            by simp only [allocateFrom, if_pos ho, if_neg hb]⟩
          rw [hword _ ho]
          exact getLsbD_countrOne ho
      · rw [allocateFrom, if_neg ho]
        apply ih
        · intro j hj hjb
          by_cases hji : j < i * 64
          · exact hlow j hji hjb
          · have hbit := getLsbD_of_lt_countrOne (show j - i * 64 < countrOne (h.bitmap.getD i 0) by omega)
            rwa [← hword _ (by omega), Nat.sub_add_cancel (by omega)] at hbit
        · rwa [Nat.add_right_comm]

theorem allocate_cases (h : PoolHeader) :
    (h.allocate = (0, h) ∧ ∀ j < h.blockCount, bit h.bitmap j = true) ∨
    ∃ k h', k < h.blockCount ∧ bit h.bitmap k = false ∧ h'.bitmap = setBit h.bitmap k ∧
      h'.freeCount = (h.freeCount + 2 ^ 64 - 1) % 2 ^ 64 ∧ h'.blockCount = h.blockCount ∧
      h'.blockSize = h.blockSize ∧ h'.pool = h.pool ∧ h.allocate = (h.indexToBlock k, h') := by
  apply allocateFrom_cases
  · simp
  · rw [bitmapLength_eq]
    omega

end PoolHeader

end XviOs.Pool
