import XviOs.Library.BitField
import XviOs.Fat.Filesystem

namespace XviOs.Fat

open Library.LittleEndian Library.Bits Library.BitField

/-- The width of an entry of the table. -/
def FatType.entryBits : FatType → Nat
  | .fat12 => 12
  | .fat16 => 16
  | .fat32 => 32

/-- The width of the cluster number in an entry: the rest is reserved. -/
def FatType.clusterBits : FatType → Nat
  | .fat12 => 12
  | .fat16 => 16
  | .fat32 => 28

/-- The number of bytes that are read for an entry. -/
def FatType.wordBytes : FatType → Nat
  | .fat12 => 2
  | .fat16 => 2
  | .fat32 => 4

namespace Filesystem

/-- The regions of a mounted volume follow one another, and the table has an entry
for every cluster. The sizes are those that `isFATFilesystem` accepts. -/
structure Layout (fs : Filesystem) : Prop where
  sectorSize : ∃ k, 9 ≤ k ∧ k ≤ 12 ∧ fs.sectorSize = 2 ^ k
  sectorsPerCluster : ∃ k, k ≤ 7 ∧ fs.sectorsPerCluster = 2 ^ k
  fatStart : fs.fatStart < 2 ^ 16
  fatCount : 0 < fs.fatCount
  fits : fs.type.entryBits * (fs.clusterCount + 2) ≤ 8 * (fs.sectorSize * fs.fatSize)
  numbers : fs.clusterCount + 2 ≤ badClusterMark &&& fs.clusterMask
  rootDir : fs.type ≠ .fat32 →
    fs.rootDirStart = fs.fatStart + fs.fatCount * fs.fatSize ∧ fs.firstCluster = fs.rootDirStart + fs.rootDirLength
  rootChain : fs.type = .fat32 → fs.firstCluster = fs.fatStart + fs.fatCount * fs.fatSize
  sectors : fs.firstCluster + fs.clusterCount * fs.sectorsPerCluster < 2 ^ 32

/-- The bytes of the first copy of the table, and of what follows it. -/
def fat (fs : Filesystem) (d : BlockDev) : Bytes :=
  fun x => d.blocks (fs.fatStart + x / fs.sectorSize) (x % fs.sectorSize)

def rawEntry (fs : Filesystem) (d : BlockDev) (cluster : Nat) : Nat :=
  field (fs.fat d) (fs.type.entryBits * cluster) fs.type.entryBits

def entry (fs : Filesystem) (d : BlockDev) (cluster : Nat) : Nat :=
  field (fs.fat d) (fs.type.entryBits * cluster) fs.type.clusterBits

/-- Where the word that holds the entry of the cluster begins. -/
def wordStart (fs : Filesystem) (cluster : Nat) : Nat := fs.type.entryBits * cluster / 8

/-- The sectors of the first and the last byte of that word. -/
def wordSector (fs : Filesystem) (cluster : Nat) : Nat := fs.fatStart + fs.wordStart cluster / fs.sectorSize
def wordSector' (fs : Filesystem) (cluster : Nat) : Nat :=
  fs.fatStart + (fs.wordStart cluster + fs.type.wordBytes - 1) / fs.sectorSize

def word (fs : Filesystem) (d : BlockDev) (cluster : Nat) : Nat :=
  readLE (fs.fat d) (fs.wordStart cluster) fs.type.wordBytes

variable {fs : Filesystem} {d d' : BlockDev} {c c' next x n v s o : Nat}

/-! ## The table as one stretch of bytes -/

theorem fat_add (ho : o < fs.sectorSize) : fs.fat d (fs.sectorSize * s + o) = d.blocks (fs.fatStart + s) o := by
  rw [fat, Nat.mul_add_div (by omega), Nat.div_eq_of_lt ho, Nat.mul_add_mod, Nat.mod_eq_of_lt ho, Nat.add_zero]

theorem readLE_sector (ho : o + n ≤ fs.sectorSize) :
    readLE (d.blocks (fs.fatStart + s)) o n = readLE (fs.fat d) (fs.sectorSize * s + o) n :=
  readLE_shift (fun x hx => by rw [Nat.add_assoc, fat_add (by omega)])

theorem fat_writeBack (ho : o + n ≤ fs.sectorSize) (hn : 0 < n) (hw : d.writeFails (fs.fatStart + s) = false) :
    fs.fat (d.writeBack (fs.fatStart + s) (writeLE (d.blocks (fs.fatStart + s)) o n v)) =
      writeLE (fs.fat d) (fs.sectorSize * s + o) n v := by
  have hpos : 0 < fs.sectorSize := by omega
  funext x
  have hx := Nat.div_add_mod x fs.sectorSize
  have hlt := Nat.mod_lt x hpos
  by_cases hs : x / fs.sectorSize = s
  · rw [hs] at hx
    have hiff : (o ≤ x % fs.sectorSize ∧ x % fs.sectorSize < o + n) ↔
        (fs.sectorSize * s + o ≤ x ∧ x < fs.sectorSize * s + o + n) := by omega
    have hsub : x % fs.sectorSize - o = x - (fs.sectorSize * s + o) := by omega
    simp only [fat, hs, BlockDev.writeBack_blocks_self _ hw, writeLE, hiff, hsub]
  · have hne : fs.fatStart + x / fs.sectorSize ≠ fs.fatStart + s := by omega
    have hout : ¬ (fs.sectorSize * s + o ≤ x ∧ x < fs.sectorSize * s + o + n) := by
      rintro ⟨hlo, hhi⟩
      apply hs
      rw [show x = fs.sectorSize * s + (x - fs.sectorSize * s) by omega, Nat.mul_add_div hpos,
        Nat.div_eq_of_lt (by omega), Nat.add_zero]
    simp only [fat, BlockDev.writeBack_blocks_of_ne _ _ hne, writeLE, if_neg hout]

/-! ## Where the entries stand -/

namespace Layout

theorem sectorSize_pos (hl : fs.Layout) : 0 < fs.sectorSize := by
  obtain ⟨k, -, -, hk⟩ := hl.sectorSize
  rw [hk]
  exact Nat.two_pow_pos k

theorem four_dvd (hl : fs.Layout) : 4 ∣ fs.sectorSize := by
  obtain ⟨k, hk, -, he⟩ := hl.sectorSize
  rw [he]
  exact Nat.pow_dvd_pow 2 (show 2 ≤ k by omega)

theorem fat_end (hl : fs.Layout) : fs.fatStart + fs.fatSize ≤ fs.firstCluster := by
  have hmul : fs.fatSize ≤ fs.fatCount * fs.fatSize := Nat.le_mul_of_pos_left _ hl.fatCount
  by_cases ht : fs.type = .fat32
  · have := hl.rootChain ht
    omega
  · have := hl.rootDir ht
    omega

theorem cluster_lt (hl : fs.Layout) (hc : c < fs.clusterCount + 2) : c < 2 ^ 28 := by
  have hn := hl.numbers
  have hm : badClusterMark &&& fs.clusterMask ≤ 2 ^ 28 := by
    unfold clusterMask
    cases fs.type <;> decide
  omega

/-- The word of every cluster lies in the first copy of the table. -/
theorem word_end (hl : fs.Layout) (hc : c < fs.clusterCount + 2) :
    fs.wordStart c + fs.type.wordBytes ≤ fs.sectorSize * fs.fatSize := by
  have hf := hl.fits
  unfold wordStart
  generalize fs.sectorSize * fs.fatSize = bytes at hf ⊢
  cases ht : fs.type <;> rw [ht] at hf <;> simp only [FatType.entryBits, FatType.wordBytes] at hf ⊢ <;> omega

theorem wordSector_lt (hl : fs.Layout) (hc : c < fs.clusterCount + 2) :
    fs.wordSector c < fs.fatStart + fs.fatSize ∧ fs.wordSector' c < fs.fatStart + fs.fatSize := by
  have hw := hl.word_end hc
  have hb : 0 < fs.type.wordBytes := by cases fs.type <;> decide
  have hdiv {x : Nat} (hx : x < fs.sectorSize * fs.fatSize) : x / fs.sectorSize < fs.fatSize :=
    Nat.div_lt_of_lt_mul hx
  have h := hdiv (show fs.wordStart c < fs.sectorSize * fs.fatSize by omega)
  have h' := hdiv (show fs.wordStart c + fs.type.wordBytes - 1 < fs.sectorSize * fs.fatSize by omega)
  unfold wordSector wordSector'
  omega

/-- The addresses of entries do not wrap around, wherever a chain may lead. -/
theorem u32_wordSector (hl : fs.Layout) (hc : c < 2 ^ 28) :
    u32 (fs.wordSector c) = fs.wordSector c ∧ u32 (fs.wordSector' c) = fs.wordSector' c := by
  have hstart := hl.fatStart
  have hword : fs.wordStart c + fs.type.wordBytes ≤ 2 ^ 31 := by
    unfold wordStart
    cases fs.type <;> simp only [FatType.entryBits, FatType.wordBytes] <;> omega
  have h := Nat.div_le_self (fs.wordStart c) fs.sectorSize
  have h' := Nat.div_le_self (fs.wordStart c + fs.type.wordBytes - 1) fs.sectorSize
  unfold wordSector wordSector'
  exact ⟨u32_of_lt (by omega), u32_of_lt (by omega)⟩

end Layout

/-- A word either lies in one sector or is two bytes, the last of one sector and the
first of the next one. -/
theorem word_split (hl : fs.Layout) (c : Nat) :
    (fs.wordStart c % fs.sectorSize + fs.type.wordBytes ≤ fs.sectorSize ∧ fs.wordSector' c = fs.wordSector c) ∨
      (fs.type = .fat12 ∧ fs.wordStart c % fs.sectorSize = fs.sectorSize - 1 ∧
        fs.wordSector' c = fs.wordSector c + 1) := by
  have hpos := hl.sectorSize_pos
  have hlt := Nat.mod_lt (fs.wordStart c) hpos
  have hx := Nat.div_add_mod (fs.wordStart c) fs.sectorSize
  obtain ⟨q, hq⟩ := hl.four_dvd
  have hdiv {k : Nat} (hk : fs.wordStart c % fs.sectorSize + k < fs.sectorSize) :
      (fs.wordStart c + k) / fs.sectorSize = fs.wordStart c / fs.sectorSize := by
    rw [show fs.wordStart c + k = fs.sectorSize * (fs.wordStart c / fs.sectorSize) +
      (fs.wordStart c % fs.sectorSize + k) by omega, Nat.mul_add_div hpos, Nat.div_eq_of_lt hk, Nat.add_zero]
  have hsame (h : fs.wordStart c % fs.sectorSize + fs.type.wordBytes ≤ fs.sectorSize) :
      fs.wordSector' c = fs.wordSector c := by
    have hb : 0 < fs.type.wordBytes := by cases fs.type <;> decide
    unfold wordSector wordSector'
    rw [Nat.add_sub_assoc hb, hdiv (by omega)]
  have haligned : fs.sectorSize * (fs.wordStart c / fs.sectorSize) = 4 * (q * (fs.wordStart c / fs.sectorSize)) := by
    rw [hq, Nat.mul_assoc]
  generalize fs.wordStart c % fs.sectorSize = r at hlt hx hsame ⊢
  cases ht : fs.type with
  | fat12 =>
      rw [ht] at hsame
      by_cases hr : r = fs.sectorSize - 1
      · refine .inr ⟨rfl, hr, ?_⟩
        have hnext : fs.wordStart c + 1 = fs.sectorSize * (fs.wordStart c / fs.sectorSize + 1) := by
          rw [Nat.mul_add]
          omega
        simp only [wordSector, wordSector', ht, FatType.wordBytes]
        rw [Nat.add_sub_assoc (by decide), hnext, Nat.mul_div_cancel_left _ hpos]
        omega
      · exact .inl ⟨by simp only [FatType.wordBytes]; omega, hsame (by simp only [FatType.wordBytes]; omega)⟩
  | fat16 =>
      have hr : r + 2 ≤ fs.sectorSize := by
        simp only [wordStart, ht, FatType.entryBits] at hx haligned
        omega
      rw [ht] at hsame
      exact .inl ⟨hr, hsame hr⟩
  | fat32 =>
      have hr : r + 4 ≤ fs.sectorSize := by
        simp only [wordStart, ht, FatType.entryBits] at hx haligned
        omega
      rw [ht] at hsame
      exact .inl ⟨hr, hsame hr⟩

/-! ## Reading -/

/-- The word of the cluster can be read from the device. -/
def WordReads (fs : Filesystem) (d : BlockDev) (c : Nat) : Prop :=
  d.readFails (fs.wordSector c) = false ∧ d.readFails (fs.wordSector' c) = false

instance : Decidable (fs.WordReads d c) := inferInstanceAs (Decidable (_ ∧ _))

/-- The entry in a word. -/
def entryOfWord (fs : Filesystem) (c w : Nat) : Nat :=
  match fs.type with
  | .fat12 => if c % 2 = 1 then w >>> 4 else w &&& 0xFFF
  | .fat16 => w
  | .fat32 => w

theorem entryOfWord_word : fs.entryOfWord c (fs.word d c) = fs.rawEntry d c := by
  apply eq_field
  intro j
  unfold entryOfWord word wordStart
  cases ht : fs.type with
  | fat12 =>
      by_cases hc : c % 2 = 1
      · have h8 : 8 * (12 * c / 8) + (4 + j) = 12 * c + j := by omega
        simp only [if_pos hc, FatType.entryBits, FatType.wordBytes, Nat.testBit_shiftRight, testBit_readLE, h8]
        congr 1
        exact decide_eq_decide.mpr (by omega)
      · have h8 : 8 * (12 * c / 8) + j = 12 * c + j := by omega
        simp only [if_neg hc, FatType.entryBits, FatType.wordBytes]
        rw [show (0xFFF : Nat) = 2 ^ 12 - 1 from rfl, Nat.and_two_pow_sub_one_eq_mod, Nat.testBit_mod_two_pow,
          testBit_readLE, h8]
        by_cases hj : j < 12
        · simp [hj, show j < 16 by omega]
        · simp [hj]
  | fat16 =>
      simp only [FatType.entryBits, FatType.wordBytes, testBit_readLE, Nat.reduceMul]
      rw [show 8 * (16 * c / 8) = 16 * c by omega]
      rfl
  | fat32 =>
      simp only [FatType.entryBits, FatType.wordBytes, testBit_readLE, Nat.reduceMul]
      rw [show 8 * (32 * c / 8) = 32 * c by omega]
      rfl

theorem rawEntry_and : fs.rawEntry d c &&& fat32ClusterMask = fs.entry d c := by
  apply eq_field
  intro j
  rw [show fat32ClusterMask = 2 ^ 28 - 1 from rfl, Nat.and_two_pow_sub_one_eq_mod, Nat.testBit_mod_two_pow, rawEntry,
    testBit_field]
  cases fs.type <;> simp only [FatType.entryBits, FatType.clusterBits]
  · by_cases hj : j < 12
    · simp [hj, show j < 28 by omega]
    · simp [hj]
  · by_cases hj : j < 16
    · simp [hj, show j < 28 by omega]
    · simp [hj]
  · by_cases hj : j < 28
    · simp [hj, show j < 32 by omega]
    · simp [hj]

/-- The two bytes of a word that goes on in the next sector. -/
theorem word_straddle (hl : fs.Layout) (ht : fs.type = .fat12)
    (h : fs.wordStart c % fs.sectorSize = fs.sectorSize - 1) (h' : fs.wordSector' c = fs.wordSector c + 1) :
    (d.blocks (fs.wordSector c) (fs.sectorSize - 1)).toNat ||| (d.blocks (fs.wordSector' c) 0).toNat <<< 8 =
      fs.word d c := by
  have hpos := hl.sectorSize_pos
  have hx := Nat.div_add_mod (fs.wordStart c) fs.sectorSize
  have hlow : d.blocks (fs.wordSector c) (fs.sectorSize - 1) = fs.fat d (fs.wordStart c) := by
    rw [← hx, h, fat_add (by omega), wordSector]
  have hhigh : d.blocks (fs.wordSector' c) 0 = fs.fat d (fs.wordStart c + 1) := by
    have hnext : fs.wordStart c + 1 = fs.sectorSize * (fs.wordStart c / fs.sectorSize + 1) + 0 := by
      rw [Nat.mul_add]
      omega
    rw [hnext, fat_add hpos, h', wordSector, Nat.add_assoc]
  have hb := (fs.fat d (fs.wordStart c)).toNat_lt
  rw [hlow, hhigh, Nat.or_comm, ← Nat.shiftLeft_add_eq_or_of_lt hb, Nat.shiftLeft_eq, word, ht]
  simp only [FatType.wordBytes, readLE]
  omega

theorem readLE_word (h : fs.wordStart c % fs.sectorSize + fs.type.wordBytes ≤ fs.sectorSize) :
    readLE (d.blocks (fs.wordSector c)) (fs.wordStart c % fs.sectorSize) fs.type.wordBytes = fs.word d c := by
  rw [wordSector, readLE_sector h, Nat.div_add_mod, word]

theorem deref_readBlock (h : d.readFails x = false) : deref (d.readBlock x) = .ok (d.blocks x) := by
  rw [BlockDev.readBlock_of_reads h, deref]

theorem deref_readBlock_fails (h : d.readFails x = true) : deref (d.readBlock x) = .error .undefined := by
  simp [BlockDev.readBlock, h, deref]

/-! The addresses that the driver computes are those of the word. -/

theorem byteOffset_eq (hc : c < 2 ^ 28) (ht : fs.type = .fat12) :
    u32 (c + c / 2) = fs.wordStart c := by
  rw [u32_of_lt (by omega), wordStart, ht, FatType.entryBits]
  omega

theorem fat16_address (hl : fs.Layout) (ht : fs.type = .fat16) :
    fs.fatStart + c / (fs.sectorSize / 2) = fs.wordSector c ∧
      2 * (c % (fs.sectorSize / 2)) = fs.wordStart c % fs.sectorSize := by
  obtain ⟨q, hq⟩ := hl.four_dvd
  have hstart : fs.wordStart c = 2 * c := by
    rw [wordStart, ht, FatType.entryBits]
    omega
  rw [wordSector, hstart, hq, show 4 * q / 2 = 2 * q by omega, show 4 * q = 2 * (2 * q) by omega,
    Nat.mul_div_mul_left _ _ (by decide), Nat.mul_mod_mul_left]
  exact ⟨rfl, rfl⟩

theorem fat32_address (hl : fs.Layout) (ht : fs.type = .fat32) :
    fs.fatStart + c / (fs.sectorSize / 4) = fs.wordSector c ∧
      4 * (c % (fs.sectorSize / 4)) = fs.wordStart c % fs.sectorSize := by
  obtain ⟨q, hq⟩ := hl.four_dvd
  have hstart : fs.wordStart c = 4 * c := by
    rw [wordStart, ht, FatType.entryBits]
    omega
  rw [wordSector, hstart, hq, show 4 * q / 4 = q by omega, Nat.mul_div_mul_left _ _ (by decide),
    Nat.mul_mod_mul_left]
  exact ⟨rfl, rfl⟩

theorem getFATEntryRaw_fat12 (hl : fs.Layout) (hc : c < 2 ^ 28) (ht : fs.type = .fat12)
    (h : fs.WordReads d c) : fs.getFATEntryRaw d c = .ok (fs.rawEntry d c) := by
  obtain ⟨hs, hs'⟩ := hl.u32_wordSector hc
  unfold getFATEntryRaw
  rw [← entryOfWord_word, entryOfWord, ht]
  simp only [byteOffset_eq hc ht]
  rcases word_split hl c with ⟨hin, heq⟩ | ⟨-, hr, heq⟩
  · have hword := readLE_word (d := d) hin
    rw [ht, FatType.wordBytes] at hin hword
    rw [if_neg (by omega), ← wordSector, hs, deref_readBlock h.1]
    show Except.ok _ = Except.ok _
    rw [hword]
  · rw [if_pos hr, ← wordSector, ← heq, hs, hs', deref_readBlock h.1,
      deref_readBlock h.2]
    show Except.ok _ = Except.ok _
    rw [word_straddle hl ht hr heq]

theorem getFATEntryRaw_ok (hl : fs.Layout) (hc : c < 2 ^ 28) (h : fs.WordReads d c) :
    fs.getFATEntryRaw d c = .ok (fs.rawEntry d c) := by
  obtain ⟨hs, -⟩ := hl.u32_wordSector hc
  have hin (ht : fs.type ≠ .fat12) : fs.wordStart c % fs.sectorSize + fs.type.wordBytes ≤ fs.sectorSize :=
    ((word_split hl c).resolve_right (fun h => ht h.1)).1
  cases ht : fs.type with
  | fat12 => exact getFATEntryRaw_fat12 hl hc ht h
  | fat16 =>
      have hword := readLE_word (d := d) (hin (by simp [ht]))
      obtain ⟨hlba, hoff⟩ := fat16_address (c := c) hl ht
      unfold getFATEntryRaw
      rw [← entryOfWord_word, entryOfWord, ht]
      simp only [hlba, hoff, hs, deref_readBlock h.1]
      rw [← hword, ht]
      rfl
  | fat32 =>
      have hword := readLE_word (d := d) (hin (by simp [ht]))
      obtain ⟨hlba, hoff⟩ := fat32_address (c := c) hl ht
      unfold getFATEntryRaw
      rw [← entryOfWord_word, entryOfWord, ht]
      simp only [hlba, hoff, hs, deref_readBlock h.1]
      rw [← hword, ht]
      rfl

theorem getFATEntryRaw_error (hl : fs.Layout) (hc : c < 2 ^ 28) (h : ¬ fs.WordReads d c) :
    fs.getFATEntryRaw d c = .error .undefined := by
  obtain ⟨hs, hs'⟩ := hl.u32_wordSector hc
  have hfirst (heq : fs.wordSector' c = fs.wordSector c) : d.readFails (fs.wordSector c) = true := by
    rw [WordReads, heq, and_self, Bool.not_eq_false] at h
    exact h
  unfold getFATEntryRaw
  cases ht : fs.type with
  | fat12 =>
      simp only [byteOffset_eq hc ht]
      rcases word_split hl c with ⟨hin, heq⟩ | ⟨-, hr, heq⟩
      · rw [ht, FatType.wordBytes] at hin
        rw [if_neg (by omega), ← wordSector, hs, deref_readBlock_fails (hfirst heq)]
        rfl
      · rw [if_pos hr, ← wordSector, ← heq, hs, hs']
        cases hf : d.readFails (fs.wordSector c)
        · have hf' : d.readFails (fs.wordSector' c) = true := by
            rw [← Bool.not_eq_false]
            exact fun h' => h ⟨hf, h'⟩
          rw [deref_readBlock hf, deref_readBlock_fails hf']
          rfl
        · rw [deref_readBlock_fails hf]
          rfl
  | fat16 =>
      have heq := ((word_split hl c).resolve_right (fun h => by simp [ht] at h)).2
      simp only [(fat16_address (c := c) hl ht).1, hs, deref_readBlock_fails (hfirst heq)]
      rfl
  | fat32 =>
      have heq := ((word_split hl c).resolve_right (fun h => by simp [ht] at h)).2
      simp only [(fat32_address (c := c) hl ht).1, hs, deref_readBlock_fails (hfirst heq)]
      rfl

theorem getFATEntry_ok (hl : fs.Layout) (hc : c < 2 ^ 28) (h : fs.WordReads d c) :
    fs.getFATEntry d c = .ok (fs.entry d c) := by
  rw [getFATEntry, getFATEntryRaw_ok hl hc h, ← rawEntry_and]
  rfl

theorem getFATEntry_error (hl : fs.Layout) (hc : c < 2 ^ 28) (h : ¬ fs.WordReads d c) :
    fs.getFATEntry d c = .error .undefined := by
  rw [getFATEntry, getFATEntryRaw_error hl hc h]
  rfl

/-! ## Writing -/

/-- The word `w` with the entry in it replaced. -/
def updateWord (fs : Filesystem) (c w next : Nat) : Nat :=
  match fs.type with
  | .fat12 => updateFAT12Word c w next
  | .fat16 => next
  | .fat32 => w &&& (2 ^ 32 - 1 - fs.clusterMask) ||| next &&& fs.clusterMask

/-- The device with the word of the cluster written. -/
def writeWord (fs : Filesystem) (d : BlockDev) (c v : Nat) : BlockDev :=
  if fs.wordSector' c = fs.wordSector c then
    d.writeBack (fs.wordSector c)
      (writeLE (d.blocks (fs.wordSector c)) (fs.wordStart c % fs.sectorSize) fs.type.wordBytes v)
  else
    (d.writeBack (fs.wordSector' c) (writeLE (d.blocks (fs.wordSector' c)) 0 1 (v / 256))).writeBack
      (fs.wordSector c) (writeLE (d.blocks (fs.wordSector c)) (fs.sectorSize - 1) 1 v)

theorem writeLE_mod (m : Bytes) (a v : Nat) : writeLE m a 1 (v % 256) = writeLE m a 1 v := by
  funext x
  simp only [writeLE]
  by_cases hx : a ≤ x ∧ x < a + 1
  · rw [if_pos hx, if_pos hx, show x - a = 0 by omega, Nat.pow_zero, Nat.div_one, Nat.div_one]
    exact UInt8.toNat_inj.mp (by simp)
  · rw [if_neg hx, if_neg hx]

theorem writeClusterChainLink_eq (hl : fs.Layout) (hc : c < 2 ^ 28) (h : fs.WordReads d c) :
    fs.writeClusterChainLink d c next = .ok (fs.writeWord d c (fs.updateWord c (fs.word d c) next)) := by
  obtain ⟨hs, hs'⟩ := hl.u32_wordSector hc
  unfold writeClusterChainLink writeWord updateWord
  cases ht : fs.type with
  | fat12 =>
      simp only [byteOffset_eq hc ht]
      rcases word_split hl c with ⟨hin, heq⟩ | ⟨-, hr, heq⟩
      · have hword := readLE_word (d := d) hin
        rw [ht, FatType.wordBytes] at hin hword
        rw [if_neg (by omega), if_pos heq, ← wordSector, hs, deref_readBlock h.1]
        show Except.ok _ = Except.ok _
        rw [hword]
        rfl
      · rw [if_pos hr, if_neg (by omega), ← wordSector, ← heq, hs, hs',
          deref_readBlock h.1, deref_readBlock h.2]
        show Except.ok _ = Except.ok _
        rw [word_straddle hl ht hr heq, Nat.shiftRight_eq_div_pow, show (0xFF : Nat) = 2 ^ 8 - 1 from rfl,
          Nat.and_two_pow_sub_one_eq_mod, writeLE_mod]
  | fat16 =>
      obtain ⟨hin, heq⟩ := (word_split hl c).resolve_right (fun h => by simp [ht] at h)
      obtain ⟨hlba, hoff⟩ := fat16_address (c := c) hl ht
      simp only [hlba, hoff, hs, deref_readBlock h.1, if_pos heq]
      rfl
  | fat32 =>
      obtain ⟨hin, heq⟩ := (word_split hl c).resolve_right (fun h => by simp [ht] at h)
      obtain ⟨hlba, hoff⟩ := fat32_address (c := c) hl ht
      have hword := readLE_word (d := d) hin
      rw [ht, FatType.wordBytes] at hword
      simp only [hlba, hoff, hs, deref_readBlock h.1, if_pos heq]
      rw [← hword]
      rfl

theorem writeClusterChainLink_error (hl : fs.Layout) (hc : c < 2 ^ 28) (h : ¬ fs.WordReads d c) :
    fs.writeClusterChainLink d c next = .error .undefined := by
  obtain ⟨hs, hs'⟩ := hl.u32_wordSector hc
  have hfirst (heq : fs.wordSector' c = fs.wordSector c) : d.readFails (fs.wordSector c) = true := by
    rw [WordReads, heq, and_self, Bool.not_eq_false] at h
    exact h
  unfold writeClusterChainLink
  cases ht : fs.type with
  | fat12 =>
      simp only [byteOffset_eq hc ht]
      rcases word_split hl c with ⟨hin, heq⟩ | ⟨-, hr, heq⟩
      · rw [ht, FatType.wordBytes] at hin
        rw [if_neg (by omega), ← wordSector, hs, deref_readBlock_fails (hfirst heq)]
        rfl
      · rw [if_pos hr, ← wordSector, ← heq, hs, hs']
        cases hf : d.readFails (fs.wordSector c)
        · have hf' : d.readFails (fs.wordSector' c) = true := by
            rw [← Bool.not_eq_false]
            exact fun h' => h ⟨hf, h'⟩
          rw [deref_readBlock hf, deref_readBlock_fails hf']
          rfl
        · rw [deref_readBlock_fails hf]
          rfl
  | fat16 =>
      have heq := ((word_split hl c).resolve_right (fun h => by simp [ht] at h)).2
      simp only [(fat16_address (c := c) hl ht).1, hs, deref_readBlock_fails (hfirst heq)]
      rfl
  | fat32 =>
      have heq := ((word_split hl c).resolve_right (fun h => by simp [ht] at h)).2
      simp only [(fat32_address (c := c) hl ht).1, hs, deref_readBlock_fails (hfirst heq)]
      rfl

@[simp] theorem writeWord_readFails : (fs.writeWord d c v).readFails = d.readFails := by
  unfold writeWord
  split <;> simp

@[simp] theorem writeWord_writeFails : (fs.writeWord d c v).writeFails = d.writeFails := by
  unfold writeWord
  split <;> simp

/-- Only the sectors of the word change. -/
theorem writeWord_blocks (h : x ≠ fs.wordSector c) (h' : x ≠ fs.wordSector' c) :
    (fs.writeWord d c v).blocks x = d.blocks x := by
  unfold writeWord
  split
  · exact BlockDev.writeBack_blocks_of_ne d _ h
  · rw [BlockDev.writeBack_blocks_of_ne _ _ h, BlockDev.writeBack_blocks_of_ne _ _ h']

theorem writeWord_failures :
    d.failures ≤ (fs.writeWord d c v).failures ∧
      ((fs.writeWord d c v).failures = d.failures ↔
        d.writeFails (fs.wordSector c) = false ∧ d.writeFails (fs.wordSector' c) = false) := by
  unfold writeWord
  split
  · next h =>
      rw [BlockDev.writeBack_failures, h]
      cases d.writeFails (fs.wordSector c) <;> simp
  · rw [BlockDev.writeBack_failures, BlockDev.writeBack_failures, BlockDev.writeBack_writeFails]
    cases d.writeFails (fs.wordSector c) <;> cases d.writeFails (fs.wordSector' c) <;> simp; omega

theorem fat_writeWord (hl : fs.Layout) (hw : d.writeFails (fs.wordSector c) = false)
    (hw' : d.writeFails (fs.wordSector' c) = false) :
    fs.fat (fs.writeWord d c v) = writeLE (fs.fat d) (fs.wordStart c) fs.type.wordBytes v := by
  have hpos := hl.sectorSize_pos
  have hx := Nat.div_add_mod (fs.wordStart c) fs.sectorSize
  have hb : 0 < fs.type.wordBytes := by cases fs.type <;> decide
  unfold writeWord
  rcases word_split hl c with ⟨hin, heq⟩ | ⟨ht, hr, heq⟩
  · rw [if_pos heq, wordSector, fat_writeBack hin hb hw, hx]
  · have hne : fs.wordSector c ≠ fs.wordSector' c := by omega
    have hnext : fs.wordSector' c = fs.fatStart + (fs.wordStart c / fs.sectorSize + 1) := by
      rw [heq, wordSector, Nat.add_assoc]
    have hstart : fs.wordStart c + 1 = fs.sectorSize * (fs.wordStart c / fs.sectorSize + 1) + 0 := by
      rw [Nat.mul_add]
      omega
    rw [if_neg (by omega), ← BlockDev.writeBack_blocks_of_ne d
      (writeLE (d.blocks (fs.wordSector' c)) 0 1 (v / 256)) hne, wordSector,
      fat_writeBack (by omega) (by decide) (by simpa [wordSector] using hw), ← hr, hx, hnext,
      fat_writeBack (by omega) (by decide) (hnext ▸ hw'), ← hstart, ht, FatType.wordBytes, writeLE_succ _ _ 1]

theorem testBit_f000 : ∀ j < 16, (0xF000 : Nat).testBit j = decide (12 ≤ j) := by decide

theorem testBit_f0000000 : ∀ j < 32, (2 ^ 32 - 1 - fat32ClusterMask).testBit j = decide (28 ≤ j) := by decide

/-- Bit `i` of the table belongs to the entry of the cluster. -/
def InEntry (fs : Filesystem) (c i : Nat) : Prop :=
  fs.type.entryBits * c ≤ i ∧ i < fs.type.entryBits * c + fs.type.clusterBits

/-- The updated word differs from the old one in the bits of the entry. -/
theorem testBit_updateWord (c w next : Nat) (hj : i < 8 * fs.type.wordBytes) :
    (fs.InEntry c (8 * fs.wordStart c + i) → (fs.updateWord c w next).testBit i =
        next.testBit (8 * fs.wordStart c + i - fs.type.entryBits * c)) ∧
      (¬ fs.InEntry c (8 * fs.wordStart c + i) → (fs.updateWord c w next).testBit i = w.testBit i) := by
  unfold InEntry wordStart updateWord updateFAT12Word
  cases ht : fs.type with
  | fat12 =>
      rw [ht] at hj
      simp only [FatType.wordBytes, FatType.entryBits, FatType.clusterBits] at hj ⊢
      by_cases hc : c % 2 = 1
      · rw [if_pos hc, Nat.testBit_mod_two_pow, Nat.testBit_or, show (0xF : Nat) = 2 ^ 4 - 1 from rfl,
          Nat.testBit_and, Nat.testBit_two_pow_sub_one, Nat.testBit_shiftLeft]
        refine ⟨fun h => ?_, fun h => ?_⟩
        · rw [show 8 * (12 * c / 8) + i - 12 * c = i - 4 by omega]
          simp [show ¬ i < 4 by omega, show i < 16 by omega, show 4 ≤ i by omega]
        · simp [show i < 4 by omega, show i < 16 by omega, show ¬ 4 ≤ i by omega]
      · rw [if_neg hc, Nat.testBit_or, show (0xFFF : Nat) = 2 ^ 12 - 1 from rfl, Nat.testBit_and, Nat.testBit_and,
          Nat.testBit_two_pow_sub_one, testBit_f000 i (by omega)]
        refine ⟨fun h => ?_, fun h => ?_⟩
        · rw [show 8 * (12 * c / 8) + i - 12 * c = i by omega]
          simp [show i < 12 by omega, show ¬ 12 ≤ i by omega]
        · simp [show ¬ i < 12 by omega, show 12 ≤ i by omega]
  | fat16 =>
      rw [ht] at hj
      simp only [FatType.wordBytes, FatType.entryBits, FatType.clusterBits] at hj ⊢
      refine ⟨fun h => ?_, fun h => absurd (by omega) h⟩
      rw [show 8 * (16 * c / 8) + i - 16 * c = i by omega]
  | fat32 =>
      rw [ht] at hj
      simp only [FatType.wordBytes, FatType.entryBits, FatType.clusterBits, clusterMask, ht] at hj ⊢
      rw [Nat.testBit_or, Nat.testBit_and, Nat.testBit_and, testBit_f0000000 i (by omega),
        show fat32ClusterMask = 2 ^ 28 - 1 from rfl, Nat.testBit_two_pow_sub_one]
      refine ⟨fun h => ?_, fun h => ?_⟩
      · rw [show 8 * (32 * c / 8) + i - 32 * c = i by omega]
        simp [show i < 28 by omega, show ¬ 28 ≤ i by omega]
      · simp [show ¬ i < 28 by omega, show 28 ≤ i by omega]

theorem fieldSet_writeWord (hl : fs.Layout) (hw : d.writeFails (fs.wordSector c) = false)
    (hw' : d.writeFails (fs.wordSector' c) = false) :
    FieldSet (fs.fat d) (fs.fat (fs.writeWord d c (fs.updateWord c (fs.word d c) next)))
      (fs.type.entryBits * c) fs.type.clusterBits next := by
  intro i
  rw [fat_writeWord hl hw hw', bit_writeLE]
  by_cases hi : 8 * fs.wordStart c ≤ i ∧ i < 8 * (fs.wordStart c + fs.type.wordBytes)
  · have hsum : 8 * fs.wordStart c + (i - 8 * fs.wordStart c) = i := by omega
    have hlt : i - 8 * fs.wordStart c < 8 * fs.type.wordBytes := by omega
    have hbits := testBit_updateWord c (fs.word d c) next hlt
    rw [hsum] at hbits
    rw [if_pos hi]
    split
    · next h => exact hbits.1 h
    · next h =>
        rw [hbits.2 h, word, testBit_readLE, hsum]
        simp [hlt]
  · have hout : ¬ (fs.type.entryBits * c ≤ i ∧ i < fs.type.entryBits * c + fs.type.clusterBits) := by
      unfold wordStart at hi
      cases ht : fs.type <;> rw [ht] at hi <;>
        simp only [FatType.wordBytes, FatType.entryBits, FatType.clusterBits] at hi ⊢ <;> omega
    rw [if_neg hi, if_neg hout]

end Filesystem

end XviOs.Fat
