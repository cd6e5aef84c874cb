import XviOs.Library.BitField

namespace XviOs.Allocator.Chunk

open Library.LittleEndian

/-- The memory that chunks lie in. Addresses of `chunk_header`, `free_chunk` and
`free_chunk_footer` objects are numbers; `0` is the null pointer. -/
abbrev Mem := Bytes

def flagBits : Nat := 3
def flagMask : Nat := 1 <<< flagBits - 1
def sizeMask : Nat := 2 ^ 64 - 1 - flagMask

def flagFree : Nat := 0b001
def flagPredFree : Nat := 0b010
def flagLast : Nat := 0b100

/-- The complement of a flag as an `unsigned int`. -/
def clearing (flag : Nat) : Nat := 2 ^ 32 - 1 - flag

def sizeofChunkHeader : Nat := 8
def sizeofFreeChunk : Nat := 24
def sizeofFreeChunkFooter : Nat := 8

def chunkAlignment : Nat := 16
def chunkOverheadSize : Nat := sizeofChunkHeader
def chunkMinSize : Nat := sizeofFreeChunk + sizeofFreeChunkFooter

/-- A loop over `next` pointers that has not stopped after one round for each
64-bit address has met a node twice, and never stops. -/
def loopBound : Nat := 2 ^ 64

section Header

variable (m : Mem) (c : Nat)

def chunkData : Nat := read64 m c
def size : Nat := chunkData m c &&& sizeMask
def flags : Nat := chunkData m c &&& flagMask
def dataSize : Nat := size m c - sizeofChunkHeader
def data : Nat := c + sizeofChunkHeader
def fromDataPointer (p : Nat) : Nat := p - sizeofChunkHeader

def setSizeAndFlags (size flags : Nat) : Mem := write64 m c (size ||| flags)
def setSize (size : Nat) : Mem := setSizeAndFlags m c size (flags m c)
def setFlags (flags : Nat) : Mem := setSizeAndFlags m c (size m c) flags

def isLast : Bool := flags m c &&& flagLast != 0
def isFree : Bool := flags m c &&& flagFree != 0
def isPredecessorFree : Bool := flags m c &&& flagPredFree != 0

def successor : Nat := if isLast m c then 0 else c + size m c
def isSuccessorFree : Bool := !isLast m c && isFree m (successor m c)

def markLast : Mem := setFlags m c (flags m c ||| flagLast)
def markNotLast : Mem := setFlags m c (flags m c &&& clearing flagLast)
def markPredecessorFree : Mem := setFlags m c (flags m c ||| flagPredFree)
def markPredecessorNotFree : Mem := setFlags m c (flags m c &&& clearing flagPredFree)

def markFree : Mem :=
  let m := setFlags m c (flags m c ||| flagFree)
  if isLast m c then m else markPredecessorFree m (successor m c)

def markNotFree : Mem :=
  let m := setFlags m c (flags m c &&& clearing flagFree)
  if isLast m c then m else markPredecessorNotFree m (successor m c)

/-- The chunk itself is the result in the source; only the memory changes. -/
def mergeWithSuccessor : Mem :=
  if isLast m c || !isFree m (successor m c) then m
  else
    let last := isLast m (successor m c)
    let m := setSize m c (size m c + size m (successor m c))
    if last then markLast m c else m

end Header

section FreeChunk

variable (m : Mem) (c : Nat)

def next : Nat := read64 m (c + 8)
def prev : Nat := read64 m (c + 16)
def setNext (p : Nat) : Mem := write64 m (c + 8) p
def setPrev (p : Nat) : Mem := write64 m (c + 16) p

def footer : Nat := c + size m c - sizeofFreeChunkFooter

/-- `free_chunk_footer::chunk` of the footer at `f`. -/
def footerChunk (f : Nat) : Nat := f + sizeofFreeChunkFooter - read64 m f

def predecessorFooter : Nat := if isPredecessorFree m c then c - sizeofFreeChunkFooter else 0
def predecessor : Nat := if isPredecessorFree m c then footerChunk m (predecessorFooter m c) else 0

def doFree : Mem :=
  let m := markFree m c
  let m := write64 m (footer m c) (size m c)
  if isLast m c then m else markPredecessorFree m (successor m c)

def mergeWithPredecessor : Mem × Nat :=
  if isPredecessorFree m c then (mergeWithSuccessor m (predecessor m c), predecessor m c) else (m, c)

/-- The first part of `split`: the header of the remaining chunk, which inherits
the `Last` flag. -/
def splitHeader (newSize : Nat) : Mem :=
  let remainingSize := size m c - newSize
  let remaining := c + newSize
  let m := setPrev m remaining 0
  let m := setNext m remaining 0
  let m := setSizeAndFlags m remaining remainingSize 0
  if isLast m c then markNotLast (markLast m remaining) c else m

/-- The memory after the split and the remaining chunk. -/
def split (newSize : Nat) : Mem × Nat :=
  let m := splitHeader m c newSize
  let remaining := c + newSize
  let m := doFree m remaining
  let m := setSize m c newSize
  (if isFree m c then doFree m c else m, remaining)

theorem split_eq (newSize : Nat) : split m c newSize = ((split m c newSize).1, c + newSize) := by
  simp only [split]

end FreeChunk

section Lists

variable (m : Mem) (c head : Nat)

/-- The memory and the list head after the call. -/
def unlinkFromList : Mem × Nat :=
  let m' := if next m c ≠ 0 then setPrev m (next m c) (prev m c) else m
  let (m', head) := if prev m' c ≠ 0 then (setNext m' (prev m' c) (next m' c), head) else (m', next m' c)
  (setNext (setPrev m' c 0) c 0, head)

/-- `while (p->next && p->next->size() < size()) p = p->next;` -/
def scanSmaller (size' : Nat) : Nat → Nat → Option Nat
  | 0, _ => none
  | fuel + 1, p =>
      if next m p ≠ 0 ∧ size m (next m p) < size' then scanSmaller size' fuel (next m p) else some p

def linkIntoSortedList : Option (Mem × Nat) := do
  let m := setNext (setPrev m c 0) c 0
  if head = 0 then
    return (m, c)
  else if size m head ≥ size m c then
    let m := setNext m c head
    return (setPrev m head c, c)
  else
    let p ← scanSmaller m (size m c) loopBound head
    let m := setNext m c (next m p)
    let m := setPrev m c p
    let m := setNext m p c
    return (if next m c ≠ 0 then setPrev m (next m c) c else m, head)

/-- `while (p && p->size() < size) p = p->next;` -/
def bestFitInList (size' : Nat) : Nat → Nat → Option Nat
  | 0, _ => none
  | fuel + 1, p => if p ≠ 0 ∧ size m p < size' then bestFitInList size' fuel (next m p) else some p

end Lists

end XviOs.Allocator.Chunk

namespace XviOs.Allocator.SizeClass

open Library.Bits Chunk

def binsPerOctave : Nat := 8
def alignment : Nat := chunkAlignment
def smallestBin : Nat := chunkMinSize
def firstInexactBin : Nat := 512
def largestBin : Nat := 128 * 1024
def exactBinCount : Nat := (firstInexactBin - smallestBin) / alignment
def inexactBinCount : Nat := (bitWidth largestBin - bitWidth firstInexactBin) * binsPerOctave
def binCount : Nat := exactBinCount + inexactBinCount

def canSplit (chunkSize requestedSize : Nat) : Bool :=
  let alignedSize := alignUp 64 requestedSize alignment
  let excessSize := if alignedSize < chunkSize then chunkSize - alignedSize else 0
  excessSize ≥ smallestBin

def sizeToBinIndex (size : Nat) : Nat :=
  if size ≤ smallestBin then 0
  else if size ≥ largestBin then binCount - 1
  else if size ≤ firstInexactBin then (alignUp 64 size alignment - smallestBin) / alignment
  else
    let bitsPerOctave := bitWidth binsPerOctave - 1
    let shift := bitWidth (bitFloor size) - 1
    let octave := shift - (bitWidth firstInexactBin - 1)
    let octaveBaseSize := firstInexactBin <<< octave
    let octaveSubdivision := octaveBaseSize / binsPerOctave
    let roundedSize := alignUp 64 size octaveSubdivision
    let offset := roundedSize >>> (shift - bitsPerOctave) &&& binsPerOctave - 1
    exactBinCount + octave * binsPerOctave + offset

def userSizeToChunkSize (userSize : Nat) : Nat :=
  let size := (userSize + chunkOverheadSize) % 2 ^ 64
  let size := alignUp 64 size alignment
  let size := max size smallestBin
  if size < userSize then 2 ^ 64 - 1 else size

def chunkSizeToUserSize (chunkSize : Nat) : Nat := chunkSize - chunkOverheadSize

theorem alignUp_alignment {x : Nat} (h : x + 15 < 2 ^ 64) :
    alignUp 64 x alignment = (x + 15) / 16 * 16 :=
  alignUp_eq (by decide : 4 ≤ 64) h

theorem sizeToBinIndex_lt (size : Nat) : sizeToBinIndex size < binCount := by
  have hs : smallestBin = 32 := by decide
  have hf : firstInexactBin = 512 := rfl
  have hb : binCount = 94 := by decide
  have he : exactBinCount = 30 := by decide
  simp only [sizeToBinIndex, hs, hf, hb, he]
  split
  · omega
  split
  · omega
  split
  · rw [alignUp_alignment (by omega), alignment, chunkAlignment]
    omega
  · have hl : largestBin = 2 ^ 17 := by decide
    have hlog : Nat.log2 size ≤ 16 := Nat.le_of_lt_succ ((Nat.log2_lt (by omega)).mpr (by omega))
    have hfloor : bitWidth (bitFloor size) - 1 = Nat.log2 size := by
      have hpos : 2 ^ Nat.log2 size ≠ 0 := (Nat.two_pow_pos _).ne'
      rw [bitFloor, if_neg (by omega), bitWidth, if_neg hpos, Nat.log2_two_pow, Nat.add_sub_cancel]
    have hw : bitWidth 512 = 10 := by decide
    have hp : binsPerOctave = 8 := rfl
    have hand (x : Nat) : x &&& 8 - 1 ≤ 7 := Nat.and_le_right
    rw [hfloor, hw, hp]
    have := hand (alignUp 64 size (512 <<< (Nat.log2 size - (10 - 1)) / 8) >>> (Nat.log2 size - (bitWidth 8 - 1)))
    omega

theorem canSplit_iff (c : Nat) {n : Nat} (hn : n % 16 = 0) (hlt : n + 15 < 2 ^ 64) :
    canSplit c n = true ↔ n + 32 ≤ c := by
  have hs : smallestBin = 32 := by decide
  have ha : (n + 15) / 16 * 16 = n := by omega
  simp only [canSplit, alignUp_alignment hlt, ha, hs, ge_iff_le, decide_eq_true_eq]
  split <;> omega

/-- The chunk size of a request is the least one that works, unless the
request is so large that the computation overflows. -/
theorem userSizeToChunkSize_spec {n : Nat} (hn : n < 2 ^ 64) :
    userSizeToChunkSize n = 2 ^ 64 - 1 ∨
      userSizeToChunkSize n % 16 = 0 ∧ 32 ≤ userSizeToChunkSize n ∧ n + 8 ≤ userSizeToChunkSize n := by
  have ho : chunkOverheadSize = 8 := rfl
  have hs : smallestBin = 32 := by decide
  simp only [userSizeToChunkSize, ho, hs]
  by_cases hbig : n + 23 < 2 ^ 64
  · right
    rw [Nat.mod_eq_of_lt (by omega : n + 8 < 2 ^ 64), alignUp_alignment (by omega)]
    split <;> omega
  · -- the sum or its rounding wraps, and the sanity check sees it
    left
    have hsmall : alignUp 64 ((n + 8) % 2 ^ 64) alignment ≤ 32 := by
      by_cases hw : n + 8 < 2 ^ 64
      · have : (n + 8) % 2 ^ 64 + 16 - 1 ≥ 2 ^ 64 ∧ (n + 8) % 2 ^ 64 + 16 - 1 < 2 ^ 64 + 16 := by omega
        rw [alignUp, alignment, chunkAlignment]
        exact Nat.and_le_left.trans (by omega)
      · rw [alignUp_alignment (by omega)]
        omega
    rw [if_pos (by omega)]

end XviOs.Allocator.SizeClass
