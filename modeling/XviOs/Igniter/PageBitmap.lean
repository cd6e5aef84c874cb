import XviOs.Library.Bitmap
import XviOs.Library.BitField

namespace XviOs.Igniter

open Library.Bitmap

def PageSize : BitVec 64 := 4096

/-- The bitmap of `bits` pages from a page on. -/
structure PageBitmap where
  baseAddress : BitVec 64
  bits : Nat
  sets : List (BitVec 64)
  base_page : baseAddress.toNat % 4096 = 0
  le_bits : 32 ≤ bits
  bits_lt : bits * 4096 < 2 ^ 64
  le_sets : bits ≤ sets.length * 64

namespace PageBitmap

variable (s : PageBitmap)

def length : BitVec 64 := BitVec.ofNat 64 (s.bits * 4096)

/-- No bit outside of the bitmap can be tested. -/
def test (n : Nat) : Option Bool := if n < s.bits then some (bit s.sets n) else none

theorem le_sets_assignBit (n : Nat) (b : Bool) : s.bits ≤ (assignBit s.sets n b).length * 64 := by
  rw [length_assignBit]
  exact s.le_sets

/-- Nor can one be set. -/
def set (n : Nat) (b : Bool) : Option PageBitmap :=
  if n < s.bits then
    some { s with sets := assignBit s.sets n b, le_sets := s.le_sets_assignBit n b }
  else none

def adjustEnd (base size : BitVec 64) : BitVec 64 × BitVec 64 :=
  if s.baseAddress + s.length < base + size then (base, s.baseAddress + s.length - base) else (base, size)

def adjustBaseAndSize (base size : BitVec 64) : BitVec 64 × BitVec 64 :=
  if base < s.baseAddress then
    if s.baseAddress - base < size then s.adjustEnd s.baseAddress (size - (s.baseAddress - base))
    else (0, 0)
  else s.adjustEnd base size

def roundDown (x : BitVec 64) : BitVec 64 := x &&& ~~~(PageSize - 1)

def roundUp (x : BitVec 64) : BitVec 64 := (x + PageSize - 1) &&& ~~~(PageSize - 1)

/-- Whole pages are marked as available, and all touched pages as unavailable. -/
def markRange (base size : BitVec 64) (available : Bool) : Option PageBitmap :=
  let adjusted := s.adjustBaseAndSize base size
  if adjusted.2 = 0 then some s
  else
    let last := adjusted.1 + adjusted.2
    let base := if available then roundUp adjusted.1 else roundDown adjusted.1
    let last := if available then roundDown last else roundUp last
    if last ≤ base then some s
    else
      (List.range ((last - base) / PageSize).toNat).foldlM
        (fun s i => s.set ((base / PageSize).toNat + i) available) s

def markAvailable (base size : BitVec 64) : Option PageBitmap := s.markRange base size true

def markUnavailable (base size : BitVec 64) : Option PageBitmap := s.markRange base size false

/-- The scan for a free page, downwards. -/
def allocateLoop : Nat → Option (BitVec 64 × PageBitmap)
  | 0 => some (0, s)
  | index + 1 =>
    match s.test index with
    | none => none
    | some true => (s.set index false).map fun s' => (s.baseAddress + BitVec.ofNat 64 index * PageSize, s')
    | some false => allocateLoop index

/-- The number of pages below a limit, of those of the bitmap. -/
def scanned (addressLimit : BitVec 64) : Nat := min (addressLimit - s.baseAddress).toNat s.length.toNat / PageSize.toNat

def allocatePage (addressLimit : BitVec 64) : Option (BitVec 64 × PageBitmap) :=
  if addressLimit < s.baseAddress then some (0, s) else s.allocateLoop (s.scanned addressLimit)

def freePage (address : BitVec 64) : Option PageBitmap := s.markAvailable address PageSize

def getAvailableSize (addressLimit : BitVec 64) : Option (BitVec 64) :=
  (List.range (s.scanned addressLimit)).foldlM
    (fun size i => (s.test i).map fun b => if b then size + PageSize else size) 0

end PageBitmap

end XviOs.Igniter

namespace XviOs.Igniter.PageBitmap

open Library.Bits Library.Bitmap

section Rounding

variable {x : BitVec 64}

theorem toNat_roundDown : (roundDown x).toNat = x.toNat / 4096 * 4096 := by
  have hmask : (~~~(PageSize - 1)).toNat = alignMask 64 (2 ^ 12) := by decide
  rw [roundDown, BitVec.toNat_and, hmask, and_alignMask (by decide) x.isLt]
  omega

theorem toNat_roundUp (h : x.toNat + 4095 < 2 ^ 64) : (roundUp x).toNat = (x.toNat + 4095) / 4096 * 4096 := by
  have hsum : (x + PageSize - 1).toNat = x.toNat + 4095 := by
    rw [PageSize]
    bv_omega
  have hdown := toNat_roundDown (x := x + PageSize - 1)
  rw [hsum] at hdown
  exact hdown

end Rounding

section Fill

variable {s : PageBitmap} {n : Nat} {b : Bool}

/-- The bitmaps are of the same pages. -/
def SameWindow (s s' : PageBitmap) : Prop := s'.baseAddress = s.baseAddress ∧ s'.bits = s.bits

theorem test_of_lt (h : n < s.bits) : s.test n = some (bit s.sets n) := by
  rw [test, if_pos h]

theorem set_spec (h : n < s.bits) :
    ∃ s', s.set n b = some s' ∧ SameWindow s s' ∧ ∀ k, bit s'.sets k = if n = k then b else bit s.sets k := by
  have hword : n / 64 < s.sets.length := Nat.div_lt_of_lt_mul (by rw [Nat.mul_comm]; exact h.trans_le s.le_sets)
  refine ⟨_, if_pos h, ⟨rfl, rfl⟩, ?_⟩
  intro k
  exact bit_assignBit (by decide) hword b

theorem fill_spec (s : PageBitmap) (lo : Nat) (b : Bool) (count : Nat) (h : lo + count ≤ s.bits) :
    ∃ s', (List.range count).foldlM (fun s i => PageBitmap.set s (lo + i) b) s = some s' ∧ SameWindow s s' ∧
      ∀ k, bit s'.sets k = if lo ≤ k ∧ k < lo + count then b else bit s.sets k := by
  induction count with
  | zero =>
    refine ⟨s, rfl, ⟨rfl, rfl⟩, ?_⟩
    intro k
    rw [if_neg (by omega)]
  | succ count ih =>
    obtain ⟨t, hfold, ⟨hbase, hbits⟩, hbit⟩ := ih (by omega)
    obtain ⟨u, hset, ⟨hbase', hbits'⟩, hbit'⟩ := set_spec (s := t) (n := lo + count) (b := b) (by omega)
    refine ⟨u, ?_, ⟨hbase'.trans hbase, hbits'.trans hbits⟩, ?_⟩
    · rw [List.range_succ, List.foldlM_append, hfold]
      exact (Option.bind_some ..).trans ((List.foldlM_cons ..).trans (by rw [hset]; rfl))
    · intro k
      rw [hbit', hbit]
      by_cases hk : lo + count = k
      · rw [if_pos hk, if_pos (by omega)]
      · rw [if_neg hk]
        exact if_congr (by omega) rfl rfl

end Fill

section MarkRange

variable {s : PageBitmap} {base size : BitVec 64} {available : Bool}

/-- The first page that is marked, for a range from `a` on. -/
def firstPage (available : Bool) (a : Nat) : Nat := if available then (a + 4095) / 4096 else a / 4096

/-- The page behind the last one that is marked, for a range up to `e`. -/
def lastPage (available : Bool) (e : Nat) : Nat := if available then e / 4096 else (e + 4095) / 4096

theorem toNat_firstPage (available : Bool) {a : BitVec 64} (h : available = true → a.toNat + 4095 < 2 ^ 64) :
    (if available then roundUp a else roundDown a).toNat = firstPage available a.toNat * 4096 := by
  cases available with
  | true => exact toNat_roundUp (h rfl)
  | false => exact toNat_roundDown

theorem toNat_lastPage (available : Bool) {e : BitVec 64} (h : e.toNat + 4095 < 2 ^ 64) :
    (if available then roundDown e else roundUp e).toNat = lastPage available e.toNat * 4096 := by
  cases available with
  | true => exact toNat_roundDown
  | false => exact toNat_roundUp h

/-- The pages of an adjusted range that lies in the bitmap are marked, by their distance from the address zero. -/
theorem markRange_adjusted {a z : BitVec 64} (hadjust : s.adjustBaseAndSize base size = (a, z)) (hz : z ≠ 0)
    (hround : available = true → a.toNat + 4095 < 2 ^ 64) (hend : (a + z).toNat ≤ s.bits * 4096) :
    ∃ s', s.markRange base size available = some s' ∧ SameWindow s s' ∧
      ∀ k, bit s'.sets k =
        if firstPage available a.toNat ≤ k ∧ k < lastPage available (a + z).toNat then available
        else bit s.sets k := by
  have hbits := s.bits_lt
  have hfirst := toNat_firstPage available hround
  have hlast := toNat_lastPage available (e := a + z) (by omega)
  have hlt : lastPage available (a + z).toNat ≤ s.bits := by
    rw [lastPage]
    split <;> omega
  rw [markRange, hadjust, if_neg hz]
  dsimp only
  generalize (if available = true then roundUp a else roundDown a) = first at hfirst ⊢
  generalize (if available = true then roundDown (a + z) else roundUp (a + z)) = last at hlast ⊢
  by_cases hempty : last ≤ first
  · rw [BitVec.le_def] at hempty
    refine ⟨s, if_pos hempty, ⟨rfl, rfl⟩, ?_⟩
    intro k
    rw [if_neg (by omega)]
  · have hle : first.toNat ≤ last.toNat := (Nat.lt_of_not_le hempty).le
    have hpage : (first / PageSize).toNat = firstPage available a.toNat := by
      rw [BitVec.toNat_udiv, hfirst]
      exact Nat.mul_div_cancel _ (by decide)
    have hcount : ((last - first) / PageSize).toNat = lastPage available (a + z).toNat - firstPage available a.toNat := by
      rw [BitVec.toNat_udiv, BitVec.toNat_sub_of_le hle, hfirst, hlast, ← Nat.sub_mul]
      exact Nat.mul_div_cancel _ (by decide)
    rw [if_neg hempty, hpage, hcount]
    obtain ⟨s', hfold, hwindow, hbit⟩ := fill_spec s (firstPage available a.toNat) available
      (lastPage available (a + z).toNat - firstPage available a.toNat) (by omega)
    refine ⟨s', hfold, hwindow, ?_⟩
    intro k
    rw [hbit]
    exact if_congr (by omega) rfl rfl

/-- Nothing is marked when the adjusted range ends before the window does, which lies below. -/
theorem markRange_above {a z : BitVec 64} (hadjust : s.adjustBaseAndSize base size = (a, z))
    (hround : available = true → a.toNat + 4095 < 2 ^ 64) {w : Nat} (hw : w * 4096 ≤ a.toNat)
    (hend : (a + z).toNat ≤ w * 4096) : s.markRange base size available = some s := by
  have hfirst := toNat_firstPage available hround
  have ha := a.isLt
  have hlast := toNat_lastPage available (e := a + z) (by omega)
  have hle : lastPage available (a + z).toNat ≤ firstPage available a.toNat := by
    rw [lastPage, firstPage]
    split <;> omega
  rw [markRange, hadjust]
  dsimp only
  generalize (if available = true then roundUp a else roundDown a) = first at hfirst ⊢
  generalize (if available = true then roundDown (a + z) else roundUp (a + z)) = last at hlast ⊢
  have hempty : last ≤ first := by
    rw [BitVec.le_def, hfirst, hlast]
    exact Nat.mul_le_mul_right _ hle
  rw [if_pos hempty, ite_self]

theorem toNat_length : s.length.toNat = s.bits * 4096 := by
  rw [PageBitmap.length, BitVec.toNat_ofNat, Nat.mod_eq_of_lt s.bits_lt]

/-- The range is cut off at the end of the window. -/
theorem adjustEnd_eq (s : PageBitmap) (base size : BitVec 64) :
    ∃ z, s.adjustEnd base size = (base, z) ∧
      (base + z).toNat = min (base + size).toNat (s.baseAddress + s.length).toNat := by
  rw [adjustEnd]
  split
  · refine ⟨_, rfl, ?_⟩
    have hsum : base + (s.baseAddress + s.length - base) = s.baseAddress + s.length := by
      rw [BitVec.add_comm, BitVec.sub_add_cancel]
    rw [hsum, min_eq_right (BitVec.le_def.mp (BitVec.le_of_lt ‹_›))]
  · exact ⟨_, rfl, (min_eq_left (BitVec.le_def.mp (BitVec.not_lt.mp ‹_›))).symm⟩

theorem markRange_size_zero {a : BitVec 64} (hadjust : s.adjustBaseAndSize base size = (a, 0)) :
    s.markRange base size available = some s := by
  rw [markRange, hadjust]
  rfl

/-- Ranges below the window and ranges above it are not marked. -/
theorem markRange_missed (hround : available = true → base.toNat + 4095 < 2 ^ 64)
    (hmiss : base.toNat + size.toNat ≤ s.baseAddress.toNat ∨ s.baseAddress.toNat + s.bits * 4096 ≤ base.toNat) :
    s.markRange base size available = some s := by
  have hlength := toNat_length (s := s)
  have hpage := s.base_page
  have hsize := size.isLt
  by_cases hlow : base < s.baseAddress
  · have hle : ¬ s.baseAddress - base < size := by
      rw [BitVec.lt_def] at hlow ⊢
      rw [BitVec.toNat_sub_of_le hlow.le]
      omega
    have hadjust : s.adjustBaseAndSize base size = (0, 0) := by
      rw [adjustBaseAndSize, if_pos hlow, if_neg hle]
    exact markRange_size_zero hadjust
  · have hlow' : s.baseAddress.toNat ≤ base.toNat := BitVec.not_lt.mp hlow
    have hwindow : (s.baseAddress + s.length).toNat = (s.baseAddress.toNat + s.bits * 4096) % 2 ^ 64 := by
      rw [BitVec.toNat_add, hlength]
    obtain ⟨z, hadjust, hsum⟩ := adjustEnd_eq s base size
    have hadjust' : s.adjustBaseAndSize base size = (base, z) := by
      rw [adjustBaseAndSize, if_neg hlow, hadjust]
    by_cases habove : (s.baseAddress + s.length).toNat ≤ base.toNat
    · refine markRange_above (w := (s.baseAddress + s.length).toNat / 4096) hadjust' hround ?_ ?_
      · omega
      · omega
    · -- The range is empty, and starts at the window.
      have hzero : size = 0#64 := BitVec.eq_of_toNat_eq (show size.toNat = 0 by omega)
      have hz : z = 0 := by
        rw [hzero, BitVec.add_zero, min_eq_left (by omega), BitVec.toNat_add] at hsum
        exact BitVec.eq_of_toNat_eq (show z.toNat = 0 by omega)
      rw [hz] at hadjust'
      exact markRange_size_zero hadjust'

/-- A range that starts in a window at the address zero is cut off at the end of the window. -/
theorem adjust_of_zero (hzero : s.baseAddress = 0) (hsum : base.toNat + size.toNat < 2 ^ 64) :
    ∃ z, s.adjustBaseAndSize base size = (base, z) ∧
      (base + z).toNat = min (base.toNat + size.toNat) (s.bits * 4096) := by
  obtain ⟨z, hadjust, hend⟩ := adjustEnd_eq s base size
  refine ⟨z, ?_, ?_⟩
  · rw [adjustBaseAndSize, hzero, if_neg (show ¬ base < 0 from Nat.not_lt_zero _), hadjust]
  · rw [hend, BitVec.toNat_add, Nat.mod_eq_of_lt hsum, hzero, BitVec.ofNat_eq_ofNat, BitVec.zero_add, toNat_length]

end MarkRange

end XviOs.Igniter.PageBitmap
