import XviOs.ByteBuffer.Endian

namespace XviOs.DeviceTree

open Library.ByteOrder ByteBuffer

def uint32 : IntType := ⟨.four, false⟩

/-- The value of a `uint32be_t` in memory. -/
def readUint32Be (native : Endian) (bytes : List UInt8) (offset : ℕ) : BitVec 32 :=
  let x : FixedEndianType native uint32 .big := ⟨ofObjectBytes native ((bytes.drop offset).take 4)⟩
  BitVec.ofNat 32 (uint32.toUnsigned x.value)

def fdtMagic : BitVec 32 := 0xd00dfeed

def fdtMaxVersion : BitVec 32 := 17

def fdtMinVersion : BitVec 32 := 16

structure FdtHeader where
  magic : BitVec 32
  fdtSize : BitVec 32
  treeOffset : BitVec 32
  stringsOffset : BitVec 32
  memoryReserveOffset : BitVec 32
  version : BitVec 32
  compatibleVersion : BitVec 32
  bootCpuId : BitVec 32
  stringsSize : BitVec 32
  treeSize : BitVec 32

/-- `sizeof(fdt_header)`. -/
def headerSize : ℕ := 40

/-- The header at the front of a span. -/
def headerAt (native : Endian) (bytes : List UInt8) : FdtHeader where
  magic := readUint32Be native bytes 0
  fdtSize := readUint32Be native bytes 4
  treeOffset := readUint32Be native bytes 8
  stringsOffset := readUint32Be native bytes 12
  memoryReserveOffset := readUint32Be native bytes 16
  version := readUint32Be native bytes 20
  compatibleVersion := readUint32Be native bytes 24
  bootCpuId := readUint32Be native bytes 28
  stringsSize := readUint32Be native bytes 32
  treeSize := readUint32Be native bytes 36

/-- The pointer to the header is given as what it points to. -/
def parseFDTHeader (native : Endian) (bytes : List UInt8) : Option FdtHeader :=
  if bytes.length < headerSize then none
  else
    let header := headerAt native bytes
    if header.magic ≠ fdtMagic ∨ header.compatibleVersion < fdtMinVersion ∨ fdtMaxVersion < header.compatibleVersion ∨
        header.fdtSize.toNat < headerSize ∨ bytes.length < header.fdtSize.toNat then none
    else
      let length := header.fdtSize
      if length < header.treeOffset ∨ length < header.treeOffset + header.treeSize ∨
          length < header.stringsOffset ∨ length < header.stringsOffset + header.stringsSize ∨
          length < header.memoryReserveOffset then none
      else some header

/-- A span of bytes, where `data` counts from the header on. -/
structure Span where
  data : ℕ
  size : ℕ

/-- What is taken must be in range. -/
def Span.subspan (s : Span) (offset count : ℕ) : Option Span :=
  if offset ≤ s.size ∧ count ≤ s.size - offset then some ⟨s.data + offset, count⟩ else none

/-- `subspan` without a count. -/
def Span.subspanFrom (s : Span) (offset : ℕ) : Option Span := s.subspan offset (s.size - offset)

def FdtHeader.all (header : FdtHeader) : Span := ⟨0, header.fdtSize.toNat⟩

def treeSpan (header : FdtHeader) (offset : BitVec 32) : Option Span := do
  let tree ← header.all.subspan header.treeOffset.toNat header.treeSize.toNat
  tree.subspanFrom offset.toNat

/-- The offset of a cursor. -/
def toCursor (header : FdtHeader) (s : Span) : Option (BitVec 64) := do
  let tree ← treeSpan header 0
  return BitVec.ofNat 64 s.data - BitVec.ofNat 64 tree.data

/-- The offset is converted to 32 bits. -/
def fromCursor (header : FdtHeader) (offset : BitVec 64) : Option Span := treeSpan header (offset.setWidth 32)

def createFDTParseCursor (header : FdtHeader) : Option (BitVec 64) := do
  let tree ← treeSpan header 0
  toCursor header tree

variable {native : Endian} {bytes : List UInt8} {header : FdtHeader}

/-- A header that passes every check, the sums in 32 bits. -/
structure Checked (header : FdtHeader) (size : ℕ) : Prop where
  headerSize_le : headerSize ≤ size
  magic : header.magic = fdtMagic
  minVersion : fdtMinVersion ≤ header.compatibleVersion
  maxVersion : header.compatibleVersion ≤ fdtMaxVersion
  headerSize_le_fdtSize : headerSize ≤ header.fdtSize.toNat
  fdtSize_le : header.fdtSize.toNat ≤ size
  treeOffset_le : header.treeOffset ≤ header.fdtSize
  treeEnd_le : header.treeOffset + header.treeSize ≤ header.fdtSize
  stringsOffset_le : header.stringsOffset ≤ header.fdtSize
  stringsEnd_le : header.stringsOffset + header.stringsSize ≤ header.fdtSize
  memoryReserveOffset_le : header.memoryReserveOffset ≤ header.fdtSize

theorem parseFDTHeader_eq_some_iff :
    parseFDTHeader native bytes = some header ↔ header = headerAt native bytes ∧ Checked header bytes.length := by
  rw [parseFDTHeader]
  dsimp only
  constructor
  · intro h
    split_ifs at h with hsize hidentity hblocks
    simp only [not_or, BitVec.not_lt, Nat.not_lt, not_not] at hsize hidentity hblocks
    obtain ⟨hmagic, hmin, hmax, hheader, hfdt⟩ := hidentity
    obtain ⟨htree, htreeEnd, hstrings, hstringsEnd, hreserve⟩ := hblocks
    cases h
    exact ⟨rfl, hsize, hmagic, hmin, hmax, hheader, hfdt, htree, htreeEnd, hstrings, hstringsEnd, hreserve⟩
  · rintro ⟨rfl, h⟩
    rw [if_neg (Nat.not_lt.mpr h.headerSize_le), if_neg, if_neg]
    · simp only [not_or, BitVec.not_lt]
      exact ⟨h.treeOffset_le, h.treeEnd_le, h.stringsOffset_le, h.stringsEnd_le, h.memoryReserveOffset_le⟩
    · simp only [not_or, BitVec.not_lt, Nat.not_lt, not_not]
      exact ⟨h.magic, h.minVersion, h.maxVersion, h.headerSize_le_fdtSize, h.fdtSize_le⟩

/-- The sums of the offsets and the sizes need no more than 32 bits. -/
def FdtHeader.SumsFit (header : FdtHeader) : Prop :=
  header.treeOffset.toNat + header.treeSize.toNat < 2 ^ 32 ∧
    header.stringsOffset.toNat + header.stringsSize.toNat < 2 ^ 32

/-- The blocks are within the span, and the spans that are taken are within what they are taken from. -/
structure InRange (header : FdtHeader) (size : ℕ) : Prop where
  tree : header.treeOffset.toNat + header.treeSize.toNat ≤ size
  strings : header.stringsOffset.toNat + header.stringsSize.toNat ≤ size
  treeSpan : ∀ offset ≤ header.treeSize, ∃ s, DeviceTree.treeSpan header offset = some s ∧ s.data + s.size ≤ size
  stringsSpan : ∃ s, header.all.subspan header.stringsOffset.toNat header.stringsSize.toNat = some s ∧
    s.data + s.size ≤ size

variable {offset count size : ℕ} {s : Span}

theorem Span.subspan_eq_some_iff {t : Span} :
    s.subspan offset count = some t ↔ offset + count ≤ s.size ∧ t = ⟨s.data + offset, count⟩ := by
  rw [subspan]
  split_ifs with h
  · exact ⟨fun ht => ⟨by omega, (Option.some_inj.mp ht).symm⟩, fun ht => congrArg some ht.2.symm⟩
  · exact ⟨fun ht => (nomatch ht), fun ht => (h (by omega)).elim⟩

theorem toNat_add_of_le {x y z : BitVec 32} (h : x.toNat + y.toNat < 2 ^ 32) (hle : x + y ≤ z) :
    x.toNat + y.toNat ≤ z.toNat := by
  have hsum := BitVec.le_def.mp hle
  rwa [BitVec.toNat_add, Nat.mod_eq_of_lt h] at hsum

theorem treeSpan_eq (htree : header.treeOffset.toNat + header.treeSize.toNat ≤ header.fdtSize.toNat)
    {offset : BitVec 32} (hoffset : offset ≤ header.treeSize) :
    treeSpan header offset =
      some ⟨header.treeOffset.toNat + offset.toNat, header.treeSize.toNat - offset.toNat⟩ := by
  have hle := BitVec.le_def.mp hoffset
  have hall : header.all.subspan header.treeOffset.toNat header.treeSize.toNat =
      some ⟨header.treeOffset.toNat, header.treeSize.toNat⟩ :=
    Span.subspan_eq_some_iff.mpr ⟨htree, by rw [FdtHeader.all, Nat.zero_add]⟩
  rw [treeSpan, hall]
  exact Span.subspan_eq_some_iff.mpr ⟨(Nat.add_sub_of_le hle).le, rfl⟩

/-- A header that is accepted describes blocks in range if and only if the sums that were compared did not wrap. -/
theorem Checked.inRange_iff (h : Checked header size) : InRange header size ↔ header.SumsFit := by
  have hlength := header.fdtSize.isLt
  have hsize := h.fdtSize_le
  constructor
  · intro hin
    obtain ⟨s, htree, -⟩ := hin.treeSpan 0 (BitVec.le_def.mpr (Nat.zero_le _))
    obtain ⟨t, hstrings, -⟩ := hin.stringsSpan
    obtain ⟨tree, hall, -⟩ := Option.bind_eq_some_iff.mp htree
    have htreeLe := (Span.subspan_eq_some_iff.mp hall).1
    have hstringsLe := (Span.subspan_eq_some_iff.mp hstrings).1
    exact ⟨Nat.lt_of_le_of_lt htreeLe hlength, Nat.lt_of_le_of_lt hstringsLe hlength⟩
  · rintro ⟨htree, hstrings⟩
    have htreeLe := toNat_add_of_le htree h.treeEnd_le
    have hstringsLe := toNat_add_of_le hstrings h.stringsEnd_le
    refine ⟨htreeLe.trans hsize, hstringsLe.trans hsize, fun offset hoffset => ⟨_, treeSpan_eq htreeLe hoffset, ?_⟩,
      _, Span.subspan_eq_some_iff.mpr ⟨hstringsLe, rfl⟩, ?_⟩
    · have hle := BitVec.le_def.mp hoffset
      dsimp only
      omega
    · change 0 + header.stringsOffset.toNat + header.stringsSize.toNat ≤ size
      omega

/-- For every span, what is accepted is in range unless a sum wraps. -/
theorem parseFDTHeader_inRange_iff (native : Endian) (bytes : List UInt8) :
    (∀ header, parseFDTHeader native bytes = some header → InRange header bytes.length) ↔
      (Checked (headerAt native bytes) bytes.length → (headerAt native bytes).SumsFit) := by
  constructor
  · intro h hchecked
    exact hchecked.inRange_iff.mp (h _ (parseFDTHeader_eq_some_iff.mpr ⟨rfl, hchecked⟩))
  · intro h header hparse
    obtain ⟨rfl, hchecked⟩ := parseFDTHeader_eq_some_iff.mp hparse
    exact hchecked.inRange_iff.mpr (h hchecked)

/-- A header alone, whose tree ends at 4 GiB. -/
def wrappingHeader : List UInt8 :=
  [0xd0, 0x0d, 0xfe, 0xed, 0, 0, 0, 40, 0, 0, 0, 40, 0, 0, 0, 40, 0, 0, 0, 40, 0, 0, 0, 17, 0, 0, 0, 16, 0, 0, 0, 0,
    0, 0, 0, 0, 0xff, 0xff, 0xff, 0xd8]

theorem parseFDTHeader_accepts_wrapping :
    ¬ ∀ (bytes : List UInt8) (header : FdtHeader), parseFDTHeader .little bytes = some header →
      header.treeOffset.toNat + header.treeSize.toNat ≤ bytes.length := by
  intro h
  have haccepted : (parseFDTHeader .little wrappingHeader).isSome := by decide
  obtain ⟨header, hparse⟩ := Option.isSome_iff_exists.mp haccepted
  have hle := h _ _ hparse
  obtain ⟨rfl, -⟩ := parseFDTHeader_eq_some_iff.mp hparse
  have hfar : ¬ (headerAt .little wrappingHeader).treeOffset.toNat +
      (headerAt .little wrappingHeader).treeSize.toNat ≤ wrappingHeader.length := by decide
  exact hfar hle

/-- The cursor at the start of an accepted tree is the tree. -/
theorem fromCursor_createFDTParseCursor (h : Checked header size) (hfit : header.SumsFit) :
    createFDTParseCursor header = some 0 ∧
      fromCursor header 0 = some ⟨header.treeOffset.toNat, header.treeSize.toNat⟩ := by
  have htree := treeSpan_eq (toNat_add_of_le hfit.1 h.treeEnd_le)
    (show (0 : BitVec 32) ≤ _ from BitVec.le_def.mpr (Nat.zero_le _))
  constructor
  · rw [createFDTParseCursor, htree]
    change toCursor header _ = some 0
    rw [toCursor, htree]
    exact congrArg some (BitVec.sub_self _)
  · exact htree

end XviOs.DeviceTree
