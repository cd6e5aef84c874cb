import XviOs.Fat.FatTable

namespace XviOs.Fat

open Library.LittleEndian Library.Bits

/-- Max filesystem sizes for each FAT type. -/
def maxClustersFAT12 : Nat := 4084
def maxClustersFAT16 : Nat := 65524

/-- A boot sector, by its bytes. -/
structure Bootsector where
  bytes : Bytes

namespace Bootsector

variable (bs : Bootsector)

def bootJump (i : Nat) : UInt8 := bs.bytes i
def oemSignature : List UInt8 := (List.range 8).map fun i => bs.bytes (3 + i)
def sectorSize : Nat := readLE bs.bytes 11 2
def sectorsPerCluster : Nat := readLE bs.bytes 13 1
def reservedSectors : Nat := readLE bs.bytes 14 2
def fatCount : Nat := readLE bs.bytes 16 1
def maxRootDirEntries : Nat := readLE bs.bytes 17 2
def sectorCount : Nat := readLE bs.bytes 19 2
def mediumType : Nat := readLE bs.bytes 21 1
def sectorsPerFat : Nat := readLE bs.bytes 22 2
def sectorCount32 : Nat := readLE bs.bytes 32 4
def sectorsPerFat32 : Nat := readLE bs.bytes 36 4
def rootDirCluster : Nat := readLE bs.bytes 44 4

def bpbSignatureExFAT : List UInt8 := ['E', 'X', 'F', 'A', 'T', ' ', ' ', ' '].map fun c => UInt8.ofNat c.toNat
def bpbSignatureNTFS : List UInt8 := ['N', 'T', 'F', 'S', ' ', ' ', ' ', ' '].map fun c => UInt8.ofNat c.toNat

def isValidMediaType (type : Nat) : Bool := type ∈ [0xF0, 0xF8, 0xF9, 0xFC, 0xFD, 0xFE, 0xFF]

def isFATFilesystem : Bool :=
  let validJmp := (bs.bootJump 0 = 0xEB ∧ bs.bootJump 2 = 0x90) ∨ bs.bootJump 0 = 0xE9
  if ¬ validJmp then false
  else if bs.oemSignature = bpbSignatureExFAT then false
  else if bs.oemSignature = bpbSignatureNTFS then false
  else if ¬ hasSingleBit bs.sectorSize ∨ bs.sectorSize < 512 ∨ bs.sectorSize > 4096 then false
  else if ¬ hasSingleBit bs.sectorsPerCluster ∨ bs.sectorsPerCluster < 1 ∨ bs.sectorsPerCluster > 128 then false
  else if bs.sectorSize * bs.sectorsPerCluster > 65536 then false
  else if bs.reservedSectors < 1 then false
  else if bs.fatCount < 1 then false
  else isValidMediaType bs.mediumType

/-- The total number of sectors could be stored in a couple of different locations. -/
def sectors : Nat := if bs.sectorCount = 0 then bs.sectorCount32 else bs.sectorCount

def rootDirSectors : Nat := (bs.maxRootDirEntries * 32 + (bs.sectorSize - 1)) / bs.sectorSize

/-- The sectors in front of the data, by the fields of a FAT12 or FAT16. -/
def usedSectors : Nat := bs.reservedSectors + bs.fatCount * bs.sectorsPerFat + bs.rootDirSectors

end Bootsector

/-- The type that a number of clusters implies. -/
def expectedType (clusters : Nat) : FatType :=
  if clusters ≤ maxClustersFAT12 then .fat12
  else if clusters ≤ maxClustersFAT16 then .fat16
  else .fat32

namespace Bootsector

variable (bs : Bootsector)

def fatType : FatType :=
  let dataSectors := u32 (bs.sectors + (2 ^ 32 - bs.usedSectors))
  let expected := expectedType (dataSectors / bs.sectorsPerCluster)
  -- a volume without sectors per FAT is a FAT32 even if we expect otherwise
  if bs.sectorsPerFat = 0 ∧ expected ≠ .fat32 then .fat32 else expected

end Bootsector

/-- A mounted volume, with the number of its sectors. -/
structure Mounted extends Filesystem where
  sectorCount : Nat
  deriving DecidableEq

/-- The layout that `mount` makes of the boot sector. -/
def mount (bs : Bootsector) : Option Mounted :=
  if ¬ bs.isFATFilesystem then none
  else
    let type := bs.fatType
    let sectorCount := if type = .fat32 ∨ bs.sectorCount = 0 then bs.sectorCount32 else bs.sectorCount
    let fatSize := if type = .fat32 then bs.sectorsPerFat32 else bs.sectorsPerFat
    let rootDirStart :=
      if type = .fat32 then bs.rootDirCluster else u32 (bs.reservedSectors + u32 (bs.fatCount * fatSize))
    let rootDirLength := if type = .fat32 then 0 else bs.maxRootDirEntries * 32 / bs.sectorSize
    let firstCluster :=
      if type = .fat32 then u32 (bs.reservedSectors + u32 (fatSize * bs.fatCount))
      else u32 (rootDirStart + rootDirLength)
    some {
      type := type
      sectorSize := bs.sectorSize
      sectorsPerCluster := bs.sectorsPerCluster
      fatStart := bs.reservedSectors
      fatCount := bs.fatCount
      fatSize := fatSize
      rootDirStart := rootDirStart
      rootDirLength := rootDirLength
      firstCluster := firstCluster
      clusterCount := u32 (sectorCount + (2 ^ 32 - firstCluster)) / bs.sectorsPerCluster
      sectorCount := sectorCount }

/-- What the layout of a mounted volume should be: nothing wrapped, the regions follow one another and end within
the volume, and the number of clusters has the type that was chosen. -/
structure LayoutRight (bs : Bootsector) (m : Mounted) : Prop where
  dataSectors : bs.usedSectors ≤ bs.sectors
  fats : 0 < m.fatStart ∧ (m.type = .fat32 → m.firstCluster = m.fatStart + m.fatCount * m.fatSize)
  rootDir : m.type ≠ .fat32 →
    m.rootDirStart = m.fatStart + m.fatCount * m.fatSize ∧ m.firstCluster = m.rootDirStart + m.rootDirLength
  data : m.firstCluster + m.clusterCount * m.sectorsPerCluster ≤ m.sectorCount
  type : m.type = expectedType m.clusterCount

namespace Bootsector

variable {bs : Bootsector}

/-- The clusters by which the type is chosen. -/
def clusters (bs : Bootsector) : Nat := (bs.sectors - bs.usedSectors) / bs.sectorsPerCluster

/-- The sectors in front of the data of a FAT32. -/
def usedSectors32 (bs : Bootsector) : Nat := bs.reservedSectors + bs.fatCount * bs.sectorsPerFat32

/-- The sectors in front of the data, without the one that the root directory ends within. -/
def usedSectors16 (bs : Bootsector) : Nat :=
  bs.reservedSectors + bs.fatCount * bs.sectorsPerFat + bs.maxRootDirEntries * 32 / bs.sectorSize

/-- The fields of the boot sector fit one another. -/
def Consistent (bs : Bootsector) : Prop :=
  bs.usedSectors ≤ bs.sectors ∧
    if bs.sectorsPerFat = 0 ∨ maxClustersFAT16 < bs.clusters then
      bs.usedSectors32 ≤ bs.sectorCount32 ∧
        maxClustersFAT16 < (bs.sectorCount32 - bs.usedSectors32) / bs.sectorsPerCluster
    else expectedType ((bs.sectors - bs.usedSectors16) / bs.sectorsPerCluster) = expectedType bs.clusters

/-! ## The fields that are accepted -/

theorem sectorCount32_lt (bs : Bootsector) : bs.sectorCount32 < 2 ^ 32 := readLE_lt _ _ _

theorem sectors_lt (bs : Bootsector) : bs.sectors < 2 ^ 32 := by
  have h : bs.sectorCount < 256 ^ 2 := readLE_lt _ _ _
  have h32 := bs.sectorCount32_lt
  rw [sectors]
  split <;> omega

theorem reservedSectors_lt (bs : Bootsector) : bs.reservedSectors < 2 ^ 16 := readLE_lt _ _ _

theorem sizes_of_isFATFilesystem (h : bs.isFATFilesystem = true) :
    (∃ k, 9 ≤ k ∧ k ≤ 12 ∧ bs.sectorSize = 2 ^ k) ∧ (∃ k, k ≤ 7 ∧ bs.sectorsPerCluster = 2 ^ k) ∧
      1 ≤ bs.reservedSectors ∧ 1 ≤ bs.fatCount := by
  simp only [isFATFilesystem, Bool.if_false_left, Bool.and_eq_true, Bool.not_eq_true', decide_eq_false_iff_not,
    not_or, not_not, not_lt] at h
  obtain ⟨-, -, -, ⟨hsector, hsector512, hsector4096⟩, ⟨hcluster, -, hcluster128⟩, -, hreserved, hcount, -⟩ := h
  obtain ⟨k, hk⟩ := hasSingleBit_pow hsector
  obtain ⟨l, hl⟩ := hasSingleBit_pow hcluster
  refine ⟨⟨k, ?_, ?_, hk⟩, ⟨l, ?_, hl⟩, hreserved, hcount⟩
  · apply (Nat.pow_le_pow_iff_right Nat.one_lt_two).mp
    rwa [← hk]
  · apply (Nat.pow_le_pow_iff_right Nat.one_lt_two).mp
    rwa [← hk]
  · apply (Nat.pow_le_pow_iff_right Nat.one_lt_two).mp
    rwa [← hl]

/-! ## The type -/

end Bootsector

open Bootsector

variable {bs : Bootsector}

/-! ## The layout -/

theorem mount_fat32 (h : bs.isFATFilesystem = true) (ht : bs.fatType = .fat32) :
    mount bs = some {
      type := .fat32, sectorSize := bs.sectorSize, sectorsPerCluster := bs.sectorsPerCluster,
      fatStart := bs.reservedSectors, fatCount := bs.fatCount, fatSize := bs.sectorsPerFat32,
      rootDirStart := bs.rootDirCluster, rootDirLength := 0,
      firstCluster := u32 (bs.reservedSectors + u32 (bs.sectorsPerFat32 * bs.fatCount)),
      clusterCount := u32 (bs.sectorCount32 +
        (2 ^ 32 - u32 (bs.reservedSectors + u32 (bs.sectorsPerFat32 * bs.fatCount)))) / bs.sectorsPerCluster,
      sectorCount := bs.sectorCount32 } := by
  simp only [mount, h, ht, not_true_eq_false, if_false, if_true, true_or]

theorem mount_fat16 (h : bs.isFATFilesystem = true) (ht : bs.fatType ≠ .fat32) :
    mount bs = some {
      type := bs.fatType, sectorSize := bs.sectorSize, sectorsPerCluster := bs.sectorsPerCluster,
      fatStart := bs.reservedSectors, fatCount := bs.fatCount, fatSize := bs.sectorsPerFat,
      rootDirStart := u32 (bs.reservedSectors + u32 (bs.fatCount * bs.sectorsPerFat)),
      rootDirLength := bs.maxRootDirEntries * 32 / bs.sectorSize,
      firstCluster := u32 (u32 (bs.reservedSectors + u32 (bs.fatCount * bs.sectorsPerFat)) +
        bs.maxRootDirEntries * 32 / bs.sectorSize),
      clusterCount := u32 (bs.sectors + (2 ^ 32 - u32 (u32 (bs.reservedSectors + u32 (bs.fatCount * bs.sectorsPerFat)) +
        bs.maxRootDirEntries * 32 / bs.sectorSize))) / bs.sectorsPerCluster,
      sectorCount := bs.sectors } := by
  simp only [mount, h, ht, not_true_eq_false, if_false, false_or, sectors]

theorem mount_fields {m : Mounted} (hm : mount bs = some m) : bs.isFATFilesystem = true ∧
    m.sectorSize = bs.sectorSize ∧ m.sectorsPerCluster = bs.sectorsPerCluster ∧ m.fatStart = bs.reservedSectors ∧
      m.fatCount = bs.fatCount ∧ m.sectorCount < 2 ^ 32 := by
  have h : bs.isFATFilesystem = true := by
    by_contra hnot
    rw [mount, if_pos hnot] at hm
    exact Option.some_ne_none m hm.symm
  by_cases ht : bs.fatType = .fat32
  · obtain rfl := Option.some.inj ((mount_fat32 h ht).symm.trans hm)
    exact ⟨h, rfl, rfl, rfl, rfl, bs.sectorCount32_lt⟩
  · obtain rfl := Option.some.inj ((mount_fat16 h ht).symm.trans hm)
    exact ⟨h, rfl, rfl, rfl, rfl, bs.sectors_lt⟩

theorem expectedType_numbers {m : Mounted} (htype : m.type = expectedType m.clusterCount)
    (h32 : m.type = .fat32 → m.clusterCount + 2 ≤ badClusterMark &&& fat32ClusterMask) :
    m.clusterCount + 2 ≤ badClusterMark &&& m.clusterMask := by
  by_cases ht : m.type = .fat32
  · rw [Filesystem.clusterMask, ht]
    exact h32 ht
  · rw [expectedType] at htype
    split at htype
    · next h =>
      rw [Filesystem.clusterMask, htype]
      exact (Nat.add_le_add_right h 2).trans (by decide)
    · split at htype
      · next h =>
        rw [Filesystem.clusterMask, htype]
        exact (Nat.add_le_add_right h 2).trans (by decide)
      · exact absurd htype ht

/-- A right layout whose table has an entry for every cluster. -/
theorem LayoutRight.layout {m : Mounted} (hm : mount bs = some m) (hright : LayoutRight bs m)
    (hfits : m.type.entryBits * (m.clusterCount + 2) ≤ 8 * (m.sectorSize * m.fatSize))
    (h32 : m.type = .fat32 → m.clusterCount + 2 ≤ badClusterMark &&& fat32ClusterMask) : m.toFilesystem.Layout := by
  obtain ⟨h, hsector, hcluster, hstart, hcount, htotal⟩ := mount_fields hm
  obtain ⟨hsize, hspc, -, hpos⟩ := sizes_of_isFATFilesystem h
  exact {
    sectorSize := hsector ▸ hsize
    sectorsPerCluster := hcluster ▸ hspc
    fatStart := hstart ▸ bs.reservedSectors_lt
    fatCount := hcount ▸ hpos
    fits := hfits
    numbers := expectedType_numbers hright.type h32
    rootDir := hright.rootDir
    rootChain := hright.fats.2
    sectors := hright.data.trans_lt htotal }

end XviOs.Fat
