import XviOs.Fat.LongName
import XviOs.Fat.Filesystem

namespace XviOs.Fat

open Library.LittleEndian Library.Bits

inductive ObjectType
  | file
  | directory
  | volumeLabel
  | rootDirectory
  deriving DecidableEq

/-- What is known of an object (`ObjectInfoImpl`). `dirSize` is the cached size of a
directory, or zero. -/
structure ObjectInfo where
  type : ObjectType
  dirent : Dirent
  name : List UInt8
  dirSize : Nat
  deriving DecidableEq

namespace ObjectInfo

def ofDirent (name : List UInt8) (dirent : Dirent) : ObjectInfo where
  type :=
    if dirent.hasAttribute attributeDirectory then .directory
    else if dirent.hasAttribute attributeVolumeLabel then .volumeLabel
    else .file
  dirent := dirent
  name := name
  dirSize := 0

def rootDir (fs : Filesystem) : ObjectInfo where
  type := .rootDirectory
  dirent := Dirent.setSize ⟨Vector.replicate 32 0⟩
    (if fs.type = .fat32 then 0 else u32 (fs.rootDirLength * fs.sectorSize))
  name := []
  dirSize := 0

def startCluster (info : ObjectInfo) : Nat := info.dirent.getStartCluster

/-- A directory has the number of its clusters for a size. -/
def size (fs : Filesystem) (d : BlockDev) (fuel : Nat) (info : ObjectInfo) : Except Fault Nat :=
  if info.type = .file ∨ info.dirent.size > 0 then .ok info.dirent.size
  else if info.dirSize ≠ 0 then .ok info.dirSize
  else fs.readClusterChain (fun _ => d) (fun index _ _ => .ok (true, u32 (index + 1))) fuel 0 info.startCluster 0

def clusterCount (fs : Filesystem) (d : BlockDev) (fuel : Nat) (info : ObjectInfo) : Except Fault Nat := do
  let size ← info.size fs d fuel
  return u32 (size + (fs.clusterSize - 1)) / fs.clusterSize

def sectorCount (fs : Filesystem) (d : BlockDev) (fuel : Nat) (info : ObjectInfo) : Except Fault Nat := do
  let size ← info.size fs d fuel
  return u32 (size + (fs.sectorSize - 1)) / fs.sectorSize

end ObjectInfo

namespace Filesystem

/-! A callback on blocks works on `α`, and `device` is the device in it. It says whether it wants more. -/

variable (fs : Filesystem) {α : Type} (device : α → BlockDev)

/-- The loop of `readRootDirBlocks` over the next `n` sectors. -/
def readRootDirSectors (offset startSector : Nat) (callback : Nat → Bytes → α → Except Fault (Bool × α)) :
    (n i : Nat) → α → Except Fault α
  | 0, _, a => .ok a
  | n + 1, i, a => do
      let data ← deref ((device a).readBlock (u32 (startSector + i)))
      let r ← callback (u32 (offset + i * fs.sectorSize)) data a
      if r.1 then readRootDirSectors offset startSector callback n (i + 1) r.2 else return r.2

def readRootDirBlocks (offset length : Nat) (callback : Nat → Bytes → α → Except Fault (Bool × α)) (a : α) :
    Except Fault α :=
  let sectorCount := min (length / fs.sectorSize) (u32 (fs.rootDirLength + (2 ^ 32 - offset)))
  let startSector := u32 (fs.rootDirStart + offset / fs.sectorSize)
  fs.readRootDirSectors device offset startSector callback sectorCount 0 a

/-- The loop of `readBlocks` over the next `n` sectors of a cluster, which begins at `sector`
and has the index `sectorIndex` in the file; whether the walk goes on. -/
def readClusterSectors (firstSector lastSector sector sectorIndex : Nat)
    (callback : Nat → Bytes → α → Except Fault (Bool × α)) : (n i : Nat) → α → Except Fault (Bool × α)
  | 0, _, a => .ok (true, a)
  | n + 1, i, a =>
      if u32 (sectorIndex + i) < firstSector then
        readClusterSectors firstSector lastSector sector sectorIndex callback n (i + 1) a
      else if u32 (sectorIndex + i) ≥ lastSector then .ok (true, a)
      else do
        let data ← deref ((device a).readBlock (u32 (sector + i)))
        let r ← callback (u32 ((sectorIndex + i) * fs.sectorSize)) data a
        if r.1 then readClusterSectors firstSector lastSector sector sectorIndex callback n (i + 1) r.2
        else return (false, r.2)

def readBlocks (fuel : Nat) (info : ObjectInfo) (offset length : Nat)
    (callback : Nat → Bytes → α → Except Fault (Bool × α)) (a : α) : Except Fault α := do
  let size ← info.size fs (device a) fuel
  let stop := min (u32 (offset + length)) size
  if offset ≥ stop then return a
  else
    let adjustment := offset &&& (fs.sectorSize - 1)
    let offset := offset - adjustment
    let length := stop - offset
    if info.type = .rootDirectory ∧ (fs.type = .fat12 ∨ fs.type = .fat16) then
      fs.readRootDirBlocks device offset length callback a
    else
      let firstSector := offset / fs.sectorSize
      let lastSector := u32 (stop + (fs.sectorSize - 1)) / fs.sectorSize
      let firstClusterIndex := offset / fs.clusterSize
      let lastClusterIndex := u32 (stop + (fs.clusterSize - 1)) / fs.clusterSize
      fs.readClusterChain device (fun n cluster a =>
        if n ≥ lastClusterIndex then .ok (false, a)
        else if n < firstClusterIndex then .ok (true, a)
        else
          fs.readClusterSectors device firstSector lastSector (fs.clusterToSector cluster)
            (u32 (n * fs.sectorsPerCluster)) callback fs.sectorsPerCluster 0 a)
        fuel 0 info.startCluster a

end Filesystem

/-- What a read keeps: the room left in the buffer, the number of bytes read, and the bytes
that were stored so far, from the start of the buffer on. -/
structure ReadState where
  out : Nat
  read : Nat
  written : List UInt8

namespace Filesystem

variable (fs : Filesystem)

/-- The bytes of a block from `start` on. -/
def bytesFrom (data : Bytes) (start n : Nat) : List UInt8 := (List.range n).map fun i => data (start + i)

/-- The callback of `readTo` on the next sector. -/
def copySector (sectorOffset : Nat) (data : Bytes) (s : ReadState) : Bool × ReadState :=
  let partialCopy := s.read = 0 ∨ fs.sectorSize > s.out
  let copyOffset := if partialCopy then sectorOffset else 0
  let copyLength := if partialCopy then min (fs.sectorSize - sectorOffset) s.out else fs.sectorSize
  let out := s.out - copyLength
  (out != 0, {
    out := out
    read := u32 (s.read + copyLength)
    written := s.written ++ bytesFrom data copyOffset copyLength })

/-- The number of bytes read into a buffer of `room` bytes, and the bytes stored there. -/
def readTo (d : BlockDev) (fuel : Nat) (info : ObjectInfo) (offset length room : Nat) :
    Except Fault (Nat × List UInt8) :=
  if room < length then .ok (0, [])
  else do
    let sectorOffset := offset % fs.sectorSize
    -- the read is aligned to the boundaries of the sectors
    let stop := alignUp 32 (u32 (offset + length)) fs.sectorSize
    let offset := offset &&& alignMask 32 fs.sectorSize
    let length := u32 (stop + (2 ^ 32 - offset))
    let s ← fs.readBlocks (fun _ => d) fuel info offset length
      (fun _ data s => .ok (fs.copySector sectorOffset data s)) ⟨room, 0, []⟩
    return (s.read, s.written)

end Filesystem

end XviOs.Fat
