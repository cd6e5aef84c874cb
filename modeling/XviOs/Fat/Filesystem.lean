import XviOs.Library.BitField

namespace XviOs.Fat

open Library.LittleEndian

/-- What the source leaves undefined, or never finishes. -/
inductive Fault
  /-- the value of a `result_t` that holds an error is used -/
  | undefined
  /-- an array is written outside of its bounds -/
  | outOfBounds
  /-- the fuel of a loop ran out -/
  | endless
  deriving DecidableEq

/-- A block device behind the fallback cache, which writes through: each block is
the bytes of one sector. `failures` counts the accesses that failed so far. -/
structure BlockDev where
  blocks : Nat → Bytes
  readFails : Nat → Bool
  writeFails : Nat → Bool
  failures : Nat

namespace BlockDev

def readBlock (d : BlockDev) (lba : Nat) : Option Bytes :=
  if d.readFails lba then none else some (d.blocks lba)

/-- Whether the write succeeded, and the device after it. -/
def writeBlock (d : BlockDev) (lba : Nat) (data : Bytes) : Bool × BlockDev :=
  if d.writeFails lba then (false, { d with failures := d.failures + 1 })
  else (true, { d with blocks := Function.update d.blocks lba data })

/-- A handle of `readBlockForUpdate` going out of scope: the cache writes the block
back and drops the result. -/
def writeBack (d : BlockDev) (lba : Nat) (data : Bytes) : BlockDev := (d.writeBlock lba data).2

/-- The sectors from `lo` up to `hi` can be read and written. -/
def Reliable (d : BlockDev) (lo hi : Nat) : Prop :=
  ∀ lba, lo ≤ lba → lba < hi → d.readFails lba = false ∧ d.writeFails lba = false

variable {d : BlockDev} {lba lo hi x : Nat} {data : Bytes}

theorem readBlock_of_reads (h : d.readFails lba = false) : d.readBlock lba = some (d.blocks lba) := by
  simp [readBlock, h]

@[simp] theorem writeBack_readFails (d : BlockDev) (lba : Nat) (data : Bytes) :
    (d.writeBack lba data).readFails = d.readFails := by
  unfold writeBack writeBlock
  split <;> rfl

@[simp] theorem writeBack_writeFails (d : BlockDev) (lba : Nat) (data : Bytes) :
    (d.writeBack lba data).writeFails = d.writeFails := by
  unfold writeBack writeBlock
  split <;> rfl

theorem writeBack_blocks_of_ne (d : BlockDev) (data : Bytes) (h : x ≠ lba) :
    (d.writeBack lba data).blocks x = d.blocks x := by
  unfold writeBack writeBlock
  split
  · rfl
  · exact Function.update_of_ne h _ _

theorem writeBack_blocks_self (data : Bytes) (h : d.writeFails lba = false) :
    (d.writeBack lba data).blocks lba = data := by
  simp [writeBack, writeBlock, h]

theorem writeBack_failures (data : Bytes) :
    (d.writeBack lba data).failures = d.failures + (d.writeFails lba).toNat := by
  unfold writeBack writeBlock
  cases h : d.writeFails lba <;> simp

end BlockDev

/-- The use of a `result_t` without a look at whether it holds a value. -/
def deref {α : Type} : Option α → Except Fault α
  | some a => .ok a
  | none => .error .undefined

end XviOs.Fat

namespace XviOs.Fat

open Library.LittleEndian Library.Bits

inductive FatType
  | fat12
  | fat16
  | fat32
  deriving DecidableEq

def fat12ClusterMask : Nat := 0xFFF
def fat16ClusterMask : Nat := 0xFFFF
def fat32ClusterMask : Nat := 0xFFFFFFF

def badClusterMark : Nat := 0xFFFFFFF7
def endOfChain : Nat := 0xFFFFFFF8
def freeClusterMark : Nat := 0

/-- What a mounted volume keeps of its boot sector (`FilesystemImpl`). -/
structure Filesystem where
  type : FatType
  sectorSize : Nat
  sectorsPerCluster : Nat
  fatStart : Nat
  fatCount : Nat
  fatSize : Nat
  rootDirStart : Nat
  rootDirLength : Nat
  firstCluster : Nat
  clusterCount : Nat
  deriving DecidableEq

/-- 32-bit unsigned arithmetic. -/
def u32 (x : Nat) : Nat := x % 2 ^ 32

theorem u32_of_lt {x : Nat} (h : x < 2 ^ 32) : u32 x = x := Nat.mod_eq_of_lt h

namespace Filesystem

variable (fs : Filesystem)

def clusterSize : Nat := fs.sectorSize * fs.sectorsPerCluster

def clusterMask : Nat :=
  match fs.type with
  | .fat12 => fat12ClusterMask
  | .fat16 => fat16ClusterMask
  | .fat32 => fat32ClusterMask

def getFATEntryRaw (d : BlockDev) (cluster : Nat) : Except Fault Nat :=
  match fs.type with
  | .fat12 => do
      let byteOffset := u32 (cluster + cluster / 2)
      let sector := byteOffset / fs.sectorSize
      let offset := byteOffset % fs.sectorSize
      -- an entry at the end of a sector goes on in the next one
      let entry ← if offset = fs.sectorSize - 1 then do
          let first ← deref (d.readBlock (u32 (fs.fatStart + sector)))
          let second ← deref (d.readBlock (u32 (fs.fatStart + sector + 1)))
          pure ((first (fs.sectorSize - 1)).toNat ||| (second 0).toNat <<< 8)
        else do
          let data ← deref (d.readBlock (u32 (fs.fatStart + sector)))
          pure (readLE data offset 2)
      return if cluster % 2 = 1 then entry >>> 4 else entry &&& 0xFFF
  | .fat16 => do
      let entriesPerSector := fs.sectorSize / 2
      let data ← deref (d.readBlock (u32 (fs.fatStart + cluster / entriesPerSector)))
      return readLE data (2 * (cluster % entriesPerSector)) 2
  | .fat32 => do
      let entriesPerSector := fs.sectorSize / 4
      let data ← deref (d.readBlock (u32 (fs.fatStart + cluster / entriesPerSector)))
      return readLE data (4 * (cluster % entriesPerSector)) 4

def getFATEntry (d : BlockDev) (cluster : Nat) : Except Fault Nat := do
  let raw ← fs.getFATEntryRaw d cluster
  return raw &&& fat32ClusterMask

def isEndOfChain (cluster : Nat) : Bool := cluster &&& fs.clusterMask ≥ endOfChain &&& fs.clusterMask

def isBadClusterMark (cluster : Nat) : Bool := cluster &&& fs.clusterMask == badClusterMark &&& fs.clusterMask

def isFreeClusterMark (cluster : Nat) : Bool := cluster &&& fs.clusterMask == freeClusterMark &&& fs.clusterMask

/-- The word of a FAT12 with the 12 bits of `cluster` replaced. -/
def updateFAT12Word (cluster value next : Nat) : Nat :=
  if cluster % 2 = 1 then (value &&& 0x000F ||| next <<< 4) % 2 ^ 16
  else value &&& 0xF000 ||| next &&& 0x0FFF

def writeClusterChainLink (d : BlockDev) (cluster next : Nat) : Except Fault BlockDev :=
  match fs.type with
  | .fat12 =>
      let byteOffset := u32 (cluster + cluster / 2)
      let sector := byteOffset / fs.sectorSize
      let offset := byteOffset % fs.sectorSize
      if offset = fs.sectorSize - 1 then do
        let lba := u32 (fs.fatStart + sector)
        let lba' := u32 (fs.fatStart + sector + 1)
        let first ← deref (d.readBlock lba)
        let second ← deref (d.readBlock lba')
        let value := (first (fs.sectorSize - 1)).toNat ||| (second 0).toNat <<< 8
        let value := updateFAT12Word cluster value next
        -- the handles go out of scope in the reverse order
        let d := d.writeBack lba' (writeLE second 0 1 (value >>> 8))
        return d.writeBack lba (writeLE first (fs.sectorSize - 1) 1 (value &&& 0xFF))
      else do
        let lba := u32 (fs.fatStart + sector)
        let data ← deref (d.readBlock lba)
        let value := updateFAT12Word cluster (readLE data offset 2) next
        return d.writeBack lba (writeLE data offset 2 value)
  | .fat16 => do
      let entriesPerSector := fs.sectorSize / 2
      let lba := u32 (fs.fatStart + cluster / entriesPerSector)
      let data ← deref (d.readBlock lba)
      return d.writeBack lba (writeLE data (2 * (cluster % entriesPerSector)) 2 next)
  | .fat32 => do
      let entriesPerSector := fs.sectorSize / 4
      let lba := u32 (fs.fatStart + cluster / entriesPerSector)
      let offset := 4 * (cluster % entriesPerSector)
      let data ← deref (d.readBlock lba)
      -- the four bits outside of the mask are reserved
      let entry := readLE data offset 4 &&& (2 ^ 32 - 1 - fs.clusterMask) ||| next &&& fs.clusterMask
      return d.writeBack lba (writeLE data offset 4 entry)

/-- `α` is what the callback works on, and `device` the device in it. -/
def readClusterChain {α : Type} (device : α → BlockDev) (callback : Nat → Nat → α → Except Fault (Bool × α)) :
    (fuel index cluster : Nat) → α → Except Fault α
  | 0, _, _, _ => .error .endless
  | fuel + 1, index, cluster, a => do
      let next ← fs.getFATEntry (device a) cluster
      if fs.isBadClusterMark next then return a
      else if fs.isFreeClusterMark next then return a
      else
        let r ← callback index cluster a
        if !r.1 then return r.2
        else if fs.isEndOfChain next then return r.2
        else readClusterChain device callback fuel (index + 1) next r.2

/-- The walk ends at the `n`-th cluster at the latest. -/
def nthChainEntry (d : BlockDev) (cluster n : Nat) : Except Fault Nat :=
  fs.readClusterChain (fun _ => d)
    (fun index value entry => .ok (if index = n then (false, value) else (true, entry))) (n + 1) 0 cluster 0

/-- Clusters are counted from two on. -/
def clusterToSector (cluster : Nat) : Nat :=
  u32 (fs.firstCluster + u32 (cluster + (2 ^ 32 - 2)) * fs.sectorsPerCluster)

/-- The loop of `findFreeCluster` over the next `n` clusters. -/
def findFreeClusterFrom (d : BlockDev) (markAsAllocated : Bool) : (n cluster : Nat) → Except Fault (Nat × BlockDev)
  | 0, _ => .ok (0, d)
  | n + 1, cluster => do
      let raw ← fs.getFATEntryRaw d cluster
      if fs.isFreeClusterMark raw then
        if markAsAllocated then
          let d ← fs.writeClusterChainLink d cluster (endOfChain &&& fs.clusterMask)
          return (cluster, d)
        else return (cluster, d)
      else findFreeClusterFrom d markAsAllocated n (cluster + 1)

def findFreeCluster (d : BlockDev) (markAsAllocated : Bool) : Except Fault (Nat × BlockDev) :=
  fs.findFreeClusterFrom d markAsAllocated (fs.clusterCount - 2) 2

def writeClusterChain (d : BlockDev) (cluster : Nat) : List Nat → Except Fault BlockDev
  | [] => .ok d
  | next :: chain => do
      let d ← fs.writeClusterChainLink d cluster next
      writeClusterChain d next chain

def freeClusterChain : (fuel : Nat) → BlockDev → (cluster : Nat) → Except Fault BlockDev
  | 0, _, _ => .error .endless
  | fuel + 1, d, cluster => do
      let next ← fs.getFATEntry d cluster
      let d ← fs.writeClusterChainLink d cluster (freeClusterMark &&& fs.clusterMask)
      if fs.isEndOfChain next then return d
      else freeClusterChain fuel d next

end Filesystem

end XviOs.Fat
