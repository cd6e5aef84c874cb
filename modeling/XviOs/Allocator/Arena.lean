import Mathlib.Logic.Function.Basic
import XviOs.Allocator.Chunk

namespace XviOs.Allocator

open Library.LittleEndian Library.Bits Chunk SizeClass

structure AccountingInfo where
  allocationCount : UInt64 := 0
  allocationFailures : UInt64 := 0
  freeCount : UInt64 := 0
  resizeAttempts : UInt64 := 0
  resizeSuccesses : UInt64 := 0
  blocksAdded : UInt64 := 0
  blocksRemoved : UInt64 := 0
  blocksHighMark : UInt64 := 0
  chunksAllocated : UInt64 := 0
  chunksFree : UInt64 := 0
  chunksAllocatedHighMark : UInt64 := 0
  chunkSplits : UInt64 := 0
  chunkMerges : UInt64 := 0
  totalSize : UInt64 := 0
  allocatedSize : UInt64 := 0
  overheadSize : UInt64 := 0
  totalSizeHighMark : UInt64 := 0
  allocatedSizeHighMark : UInt64 := 0
  corruptionEvents : UInt64 := 0

structure BinAccountingInfo where
  firstSearchCount : UInt64 := 0
  totalSearchCount : UInt64 := 0
  allocationCount : UInt64 := 0
  freeCount : UInt64 := 0
  chunkCount : UInt64 := 0
  chunkCountHighMark : UInt64 := 0
  splitFromCount : UInt64 := 0
  splitToCount : UInt64 := 0
  mergeFromCount : UInt64 := 0
  mergeToCount : UInt64 := 0

/-- The members of `bin_accounting_info` that a pointer to member is made from. -/
inductive AccountingBucket
  | allocationCount
  | freeCount
  | splitFromCount
  | splitToCount
  | mergeFromCount
  | mergeToCount

/-- `acct.*accounting_bucket += 1` -/
def BinAccountingInfo.increment (acct : BinAccountingInfo) : AccountingBucket → BinAccountingInfo
  | .allocationCount => { acct with allocationCount := acct.allocationCount + 1 }
  | .freeCount => { acct with freeCount := acct.freeCount + 1 }
  | .splitFromCount => { acct with splitFromCount := acct.splitFromCount + 1 }
  | .splitToCount => { acct with splitToCount := acct.splitToCount + 1 }
  | .mergeFromCount => { acct with mergeFromCount := acct.mergeFromCount + 1 }
  | .mergeToCount => { acct with mergeToCount := acct.mergeToCount + 1 }

/-- The statistics of a bin that a chunk is added to. The bucket of
`addMemoryBlock` is the null pointer to member, through which C++ gives the
increment no meaning; here it increments nothing. -/
def BinAccountingInfo.addChunk (acct : BinAccountingInfo) (bucket : Option AccountingBucket) : BinAccountingInfo :=
  let acct := { acct with chunkCount := acct.chunkCount + 1 }
  let acct := { acct with chunkCountHighMark := max acct.chunkCountHighMark acct.chunkCount }
  (bucket.map acct.increment).getD acct

/-- The statistics of a bin that a chunk is removed from. -/
def BinAccountingInfo.removeChunk (acct : BinAccountingInfo) (bucket : AccountingBucket) : BinAccountingInfo :=
  let acct := { acct with chunkCount := acct.chunkCount - 1 }
  acct.increment bucket

theorem BinAccountingInfo.increment_chunkCount (acct : BinAccountingInfo) (bucket : AccountingBucket) :
    (acct.increment bucket).chunkCount = acct.chunkCount := by
  cases bucket <;> rfl

theorem BinAccountingInfo.addChunk_chunkCount (acct : BinAccountingInfo) (bucket : Option AccountingBucket) :
    (acct.addChunk bucket).chunkCount = acct.chunkCount + 1 := by
  cases bucket with
  | none => rfl
  | some bucket => exact increment_chunkCount _ bucket

theorem BinAccountingInfo.removeChunk_chunkCount (acct : BinAccountingInfo) (bucket : AccountingBucket) :
    (acct.removeChunk bucket).chunkCount = acct.chunkCount - 1 :=
  increment_chunkCount _ bucket

/-- An `Arena` object together with the memory its blocks lie in. -/
structure Arena where
  mem : Mem
  blocks : Nat := 0
  bins : Nat → Nat := fun _ => 0
  accounting : AccountingInfo := {}
  binAccounting : Nat → BinAccountingInfo := fun _ => {}

def sizeofBlockHeader : Nat := 24

namespace Arena

def incrementBin (s : Arena) (index : Nat) (bucket : AccountingBucket) : Arena :=
  { s with binAccounting := Function.update s.binAccounting index ((s.binAccounting index).increment bucket) }

def addFreeChunk (s : Arena) (chunk : Nat) (bucket : Option AccountingBucket) : Option Arena := do
  let index := sizeToBinIndex (size s.mem chunk)
  let (mem, head) ← linkIntoSortedList s.mem chunk (s.bins index)
  return { s with
    mem := mem
    bins := Function.update s.bins index head
    binAccounting := Function.update s.binAccounting index ((s.binAccounting index).addChunk bucket) }

def removeChunkFromBin (s : Arena) (chunk : Nat) (bucket : AccountingBucket) : Arena :=
  let index := sizeToBinIndex (size s.mem chunk)
  let unlinked := unlinkFromList s.mem chunk (s.bins index)
  { s with
    mem := unlinked.1
    bins := Function.update s.bins index unlinked.2
    accounting := { s.accounting with chunksFree := s.accounting.chunksFree - 1 }
    binAccounting := Function.update s.binAccounting index ((s.binAccounting index).removeChunk bucket) }

/-- The statistics about the chunks in use. -/
def usage (s : Arena) : UInt64 × UInt64 := (s.accounting.chunksAllocated, s.accounting.allocatedSize)

section Bins

variable (s : Arena) (chunk : Nat)

@[simp]
theorem incrementBin_chunkCount (index i : Nat) (bucket : AccountingBucket) :
    ((s.incrementBin index bucket).binAccounting i).chunkCount = (s.binAccounting i).chunkCount := by
  simp only [incrementBin]
  by_cases hi : i = index
  · subst hi
    rw [Function.update_self, BinAccountingInfo.increment_chunkCount]
  · rw [Function.update_of_ne hi]

theorem removeChunkFromBin_blocks (bucket : AccountingBucket) :
    (s.removeChunkFromBin chunk bucket).blocks = s.blocks := by
  simp only [removeChunkFromBin]

theorem removeChunkFromBin_usage (bucket : AccountingBucket) :
    (s.removeChunkFromBin chunk bucket).usage = s.usage := by
  simp only [usage, removeChunkFromBin]

theorem addFreeChunk_eq (bucket : Option AccountingBucket) {mem : Mem} {head : Nat}
    (h : linkIntoSortedList s.mem chunk (s.bins (sizeToBinIndex (size s.mem chunk))) = some (mem, head)) :
    s.addFreeChunk chunk bucket = some { s with
      mem := mem
      bins := Function.update s.bins (sizeToBinIndex (size s.mem chunk)) head
      binAccounting := Function.update s.binAccounting (sizeToBinIndex (size s.mem chunk))
        ((s.binAccounting (sizeToBinIndex (size s.mem chunk))).addChunk bucket) } := by
  simp only [addFreeChunk, h]
  rfl

end Bins

/-- The search statistics of a bin that is looked into. -/
def countSearch (s : Arena) (startIndex index : Nat) : Arena :=
  let acct := s.binAccounting index
  let acct := { acct with totalSearchCount := acct.totalSearchCount + 1 }
  let acct := if index = startIndex then { acct with firstSearchCount := acct.firstSearchCount + 1 } else acct
  { s with binAccounting := Function.update s.binAccounting index acct }

theorem countSearch_chunkCount (s : Arena) (startIndex index i : Nat) :
    ((s.countSearch startIndex index).binAccounting i).chunkCount = (s.binAccounting i).chunkCount := by
  simp only [countSearch]
  by_cases hi : i = index
  · subst hi
    rw [Function.update_self]
    split <;> rfl
  · rw [Function.update_of_ne hi]

/-- The scan over the bins from `index` on, `n` of which are left. -/
def searchBins (startIndex minChunkSize : Nat) (s : Arena) (index : Nat) : Nat → Option (Nat × Arena)
  | 0 => some (0, s)
  | n + 1 => do
      let s := s.countSearch startIndex index
      if s.bins index ≠ 0 then
        let chunk ← bestFitInList s.mem minChunkSize loopBound (s.bins index)
        if chunk ≠ 0 then
          return (chunk, s.incrementBin index .allocationCount)
        else
          searchBins startIndex minChunkSize s (index + 1) n
      else
        searchBins startIndex minChunkSize s (index + 1) n

def allocationFailure (s : Arena) : (Nat × Nat) × Arena :=
  ((0, 0), { s with accounting :=
    { s.accounting with allocationFailures := s.accounting.allocationFailures + 1 } })

def recordSplit (s : Arena) (overhead : Nat) : Arena :=
  { s with accounting := { s.accounting with
    chunkSplits := s.accounting.chunkSplits + 1
    overheadSize := s.accounting.overheadSize + UInt64.ofNat overhead } }

/-- The part of `allocate` that cuts the unneeded space off the chunk found. -/
def splitFound (s : Arena) (chunk : Nat) (minChunkSize : Nat) : Option Arena := do
  if canSplit (size s.mem chunk) minChunkSize then
    let s := s.incrementBin (sizeToBinIndex (size s.mem chunk)) .splitFromCount
    let (mem, extraChunk) := split s.mem chunk minChunkSize
    let s := { s with mem := mem }
    let s ← s.addFreeChunk extraChunk (some .splitToCount)
    let s := s.incrementBin (sizeToBinIndex (size s.mem chunk)) .splitToCount
    return s.recordSplit chunkOverheadSize
  else
    return s

/-- The part of `allocate` that hands the chunk out. -/
def takeChunk (s : Arena) (chunk : Nat) : (Nat × Nat) × Arena :=
  let mem := markNotFree s.mem chunk
  let a := s.accounting
  let chunksAllocated := a.chunksAllocated + 1
  let allocatedSize := a.allocatedSize + UInt64.ofNat (size mem chunk)
  ((data chunk, dataSize mem chunk), { s with
    mem := mem
    accounting := { a with
      allocationCount := a.allocationCount + 1
      chunksAllocated := chunksAllocated
      chunksAllocatedHighMark := max a.chunksAllocatedHighMark chunksAllocated
      allocatedSize := allocatedSize
      allocatedSizeHighMark := max a.allocatedSizeHighMark allocatedSize } })

def allocateAligned (s : Arena) (userSize alignmentVal : Nat) : Option ((Nat × Nat) × Arena) := do
  if userSize = 0 then
    return ((0, 0), s)
  else if !hasSingleBit alignmentVal then
    return s.allocationFailure
  else if alignmentVal > alignment then
    return s.allocationFailure
  else
    let minChunkSize := userSizeToChunkSize userSize
    if minChunkSize ≥ largestBin then
      return s.allocationFailure
    else
      let startIndex := sizeToBinIndex minChunkSize
      let (chunk, s) ← searchBins startIndex minChunkSize s startIndex (binCount - startIndex)
      if chunk = 0 then
        return s.allocationFailure
      else
        let s := s.removeChunkFromBin chunk .allocationCount
        let s ← s.splitFound chunk minChunkSize
        return s.takeChunk chunk

def allocate (s : Arena) (size : Nat) : Option ((Nat × Nat) × Arena) :=
  s.allocateAligned size alignment

def recordMerge (s : Arena) : Arena :=
  { s with accounting := { s.accounting with
    chunkMerges := s.accounting.chunkMerges + 1
    overheadSize := s.accounting.overheadSize - UInt64.ofNat sizeofChunkHeader } }

theorem recordMerge_usage (s : Arena) (mem : Mem) : (recordMerge { s with mem := mem }).usage = s.usage := rfl

/-- `free` merges a free successor into the chunk. -/
def freeMergeSuccessor (s : Arena) (chunk : Nat) : Arena × Bool :=
  if isSuccessorFree s.mem chunk then
    let s := s.removeChunkFromBin (successor s.mem chunk) .mergeFromCount
    (recordMerge { s with mem := mergeWithSuccessor s.mem chunk }, true)
  else
    (s, false)

/-- `free` merges the chunk into a free predecessor; the result is the chunk
that the memory now belongs to. -/
def freeMergePredecessor (s : Arena) (chunk : Nat) : Arena × Nat × Bool :=
  if isPredecessorFree s.mem chunk then
    let s := s.removeChunkFromBin (predecessor s.mem chunk) .mergeFromCount
    let (mem, chunk) := mergeWithPredecessor s.mem chunk
    (recordMerge { s with mem := mem }, chunk, true)
  else
    (s, chunk, false)

def free (s : Arena) (memory : Nat) : Option Arena := do
  if memory = 0 then
    return s
  else
    let chunk := fromDataPointer memory
    if isFree s.mem chunk then
      return s
    else
      let s := { s with accounting := { s.accounting with
        freeCount := s.accounting.freeCount + 1
        chunksAllocated := s.accounting.chunksAllocated - 1
        allocatedSize := s.accounting.allocatedSize - UInt64.ofNat (size s.mem chunk) } }
      let s := { s with mem := markFree s.mem chunk }
      let (s, mergedSuccessor) := s.freeMergeSuccessor chunk
      let (s, chunk, mergedPredecessor) := s.freeMergePredecessor chunk
      let s := { s with mem := doFree s.mem chunk }
      let s ← s.addFreeChunk chunk (some .freeCount)
      if mergedSuccessor || mergedPredecessor then
        return s.incrementBin (sizeToBinIndex (size s.mem chunk)) .mergeToCount
      else
        return s

def recordResizeAttempt (s : Arena) : Arena :=
  { s with accounting := { s.accounting with resizeAttempts := s.accounting.resizeAttempts + 1 } }

def recordResizeSuccess (s : Arena) : Arena :=
  { s with accounting := { s.accounting with resizeSuccesses := s.accounting.resizeSuccesses + 1 } }

/-- The second half of `resize`, reached when the chunk is known to be big
enough: cut off what is not needed if that makes a chunk of its own. -/
def resizeShrink (s : Arena) (chunk : Nat) (newSize oldSize : Nat) : Option (Nat × Arena) := do
  let s := s.recordResizeSuccess
  if newSize < oldSize then
    let diff := oldSize - newSize
    if diff < smallestBin then
      return (chunkSizeToUserSize oldSize, s)
    else
      let (mem, newChunk) := split s.mem chunk newSize
      let s ← { s with mem := mem }.addFreeChunk newChunk (some .splitToCount)
      return (chunkSizeToUserSize newSize, s.recordSplit sizeofChunkHeader)
  else
    return (chunkSizeToUserSize newSize, s)

def resize (s : Arena) (memory : Nat) (requestedSize : Nat) : Option (Nat × Arena) := do
  if requestedSize = 0 then
    let s ← s.free memory
    return (0, s)
  else
    let s := s.recordResizeAttempt
    if memory = 0 then
      return (0, s)
    else
      let chunk := fromDataPointer memory
      let oldSize := size s.mem chunk
      let newSize := userSizeToChunkSize requestedSize
      if newSize > oldSize then
        let next := successor s.mem chunk
        if next = 0 ∨ isFree s.mem next = false ∨ oldSize + size s.mem next < newSize then
          return (chunkSizeToUserSize oldSize, s)
        else
          let s := s.removeChunkFromBin next .mergeFromCount
          let s := recordMerge { s with mem := mergeWithSuccessor s.mem chunk }
          s.resizeShrink chunk newSize (size s.mem chunk)
      else
        s.resizeShrink chunk newSize oldSize

def addMemoryBlock (s : Arena) (block : Nat) (size : Nat) : Option Arena :=
  -- the block header: `block_size`, `next`, `prev`
  let mem := write64 s.mem block size
  let mem := write64 mem (block + 8) 0
  let mem := write64 mem (block + 16) s.blocks
  let a := s.accounting
  let blocksAdded := a.blocksAdded + 1
  let totalSize := a.totalSize + UInt64.ofNat size
  let chunk := block + sizeofBlockHeader
  -- 64-bit arithmetic: the difference wraps for a size below that of the header
  let mem := setSize mem chunk ((size + (2 ^ 64 - sizeofBlockHeader)) % 2 ^ 64)
  let mem := markLast mem chunk
  let mem := doFree mem chunk
  let s := { s with
    mem := mem
    blocks := block
    accounting := { a with
      blocksAdded := blocksAdded
      blocksHighMark := max a.blocksHighMark blocksAdded
      totalSize := totalSize
      overheadSize := a.overheadSize + UInt64.ofNat sizeofBlockHeader
      totalSizeHighMark := max a.totalSizeHighMark totalSize } }
  s.addFreeChunk chunk none

/-- A new arena, over memory that may hold anything. -/
def empty (m : Mem) : Arena := { mem := m }

def alignofArena : Nat := 8

/-- The mutex, the list of the blocks, the bins and the statistics. -/
def sizeofArena : Nat := 8 + 8 + 8 * binCount + 8 * 19 + 8 * 10 * binCount

/-- `std::align` of the repository's C++ library: the pointer and the space after the
call, or `none` for null. The space goes down by the size as well as by the padding. -/
def align (alignment size ptr space : Nat) : Option (Nat × Nat) :=
  let aligned := alignUp 64 ptr alignment
  let padding := (aligned + (2 ^ 64 - ptr)) % 2 ^ 64
  if (size + padding) % 2 ^ 64 > space then none else some (aligned, space - (size + padding) % 2 ^ 64)

/-- Where `createFromMemory` puts the arena, and the region that it adds as a block. -/
def place (memory size : Nat) : Option (Nat × Option (Nat × Nat)) := do
  let (arena, size) ← align alignofArena sizeofArena memory size
  return (arena, align alignment (sizeofBlockHeader + smallestBin) (arena + sizeofArena)
    ((size + (2 ^ 64 - sizeofArena)) % 2 ^ 64))

/-- The pointer to the arena, null if there is no room for one, and the arena. -/
def createFromMemory (m : Mem) (memory size : Nat) : Option (Nat × Arena) :=
  match place memory size with
  | none => some (0, empty m)
  | some (arena, none) => some (arena, empty m)
  | some (arena, some (block, size)) => do
      let s ← (empty m).addMemoryBlock block size
      return (arena, s)

end Arena

end XviOs.Allocator
