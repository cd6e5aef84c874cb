import XviOs.Fat.Object

namespace XviOs.Fat

open Library.LittleEndian Library.Bits

namespace ObjectInfo

def setSize (info : ObjectInfo) (size : Nat) : ObjectInfo := { info with dirent := info.dirent.setSize size }
def setCluster (info : ObjectInfo) (cluster : Nat) : ObjectInfo := { info with dirent := info.dirent.setCluster cluster }
def setMetadata (info updated : ObjectInfo) : ObjectInfo := { info with dirent := updated.dirent }

end ObjectInfo

/-- The last cluster that was looked up, and its index in the object (`cluster_hint`). -/
structure ClusterHint where
  index : Nat
  cluster : Nat

/-- What a write works on: the device, the object, and what the parts of the write share. -/
structure WriteState where
  device : BlockDev
  info : ObjectInfo
  hint : ClusterHint
  validLength : Nat

/-- The block with `data` written over its bytes from `start` on. -/
def storeBytes (block : Bytes) (start : Nat) (data : List UInt8) : Bytes :=
  fun x => if start ≤ x then data.getD (x - start) (block x) else block x

namespace Filesystem

variable (fs : Filesystem)

def clusterLookup (index : Nat) (s : WriteState) : Except Fault (Nat × WriteState) :=
  let hint := if index < s.hint.index ∨ s.hint.cluster = 0 then ⟨0, 0⟩ else s.hint
  let start := if hint.cluster ≠ 0 then hint.cluster else s.info.startCluster
  if start = 0 then .ok (0, { s with hint := hint })
  else do
    let cluster ← fs.nthChainEntry s.device start (index - hint.index)
    return (cluster, { s with hint := ⟨index, cluster⟩ })

/-! ## Sectors -/

def overwritePartialSector (lba offset : Nat) (data : List UInt8) (d : BlockDev) : Bool × BlockDev :=
  if offset + data.length > fs.sectorSize then (false, d)
  else
    match d.readBlock lba with
    | none => (false, d)
    | some contents => (true, d.writeBack lba (storeBytes contents offset data))

def overwriteSector (lba : Nat) (data : List UInt8) (d : BlockDev) : Bool × BlockDev :=
  if data.length ≠ fs.sectorSize then (false, d)
  else d.writeBlock lba (storeBytes (fun _ => 0) 0 data)

def appendPartialSector (lba offset : Nat) (data : List UInt8) (d : BlockDev) : Bool × BlockDev :=
  if offset + data.length > fs.sectorSize then (false, d)
  else if offset ≠ 0 then fs.overwritePartialSector lba offset data d
  -- the result of the write is not looked at
  else (true, (d.writeBlock lba (storeBytes (fun _ => 0) 0 data)).2)

def appendSector (lba : Nat) (data : List UInt8) (d : BlockDev) : Bool × BlockDev := fs.overwriteSector lba data d

/-- What a write to a part of a cluster leaves: whether it went well, the number of sectors
that it stored, and the device. -/
structure Stored where
  ok : Bool
  sectors : Nat
  device : BlockDev

/-- The loop over the next `n` whole sectors. -/
def storeWholeSectors (store : Nat → List UInt8 → BlockDev → Bool × BlockDev) (lba : Nat) :
    (n i : Nat) → List UInt8 → BlockDev → Stored
  | 0, i, _, d => ⟨true, i, d⟩
  | n + 1, i, data, d =>
      let r := store (u32 (lba + i)) (data.take fs.sectorSize) d
      if r.1 then storeWholeSectors store lba n (i + 1) (data.drop fs.sectorSize) r.2 else ⟨false, i, r.2⟩

/-- The part that `overwriteCluster` and `appendCluster` have in common: the rest of a sector
first, then whole sectors, and then the start of another one. -/
def storeInCluster (storePartial : Nat → Nat → List UInt8 → BlockDev → Bool × BlockDev)
    (storeWhole : Nat → List UInt8 → BlockDev → Bool × BlockDev) (sector clusterOffset : Nat) (data : List UInt8)
    (d : BlockDev) : Stored :=
  let lba := u32 (sector + clusterOffset / fs.sectorSize)
  let sectorOffset := clusterOffset % fs.sectorSize
  let partialSize := if sectorOffset ≠ 0 then min data.length (fs.sectorSize - sectorOffset) else 0
  let first := if sectorOffset ≠ 0 then storePartial lba sectorOffset (data.take partialSize) d else (true, d)
  if !first.1 then ⟨false, 0, first.2⟩
  else
    let skipped := if sectorOffset ≠ 0 then 1 else 0
    let data := data.drop partialSize
    let sectorCount := data.length / fs.sectorSize
    let whole := fs.storeWholeSectors storeWhole (lba + skipped) sectorCount 0 data first.2
    if !whole.ok then ⟨false, skipped + whole.sectors, whole.device⟩
    else
      let data := data.drop (sectorCount * fs.sectorSize)
      if data.length = 0 then ⟨true, skipped + sectorCount, whole.device⟩
      else
        let last := storePartial (u32 (lba + skipped + sectorCount)) 0 data whole.device
        ⟨last.1, skipped + sectorCount + last.1.toNat, last.2⟩

/-! ## Clusters -/

def overwriteCluster (offset : Nat) (data : List UInt8) (s : WriteState) : Except Fault (Bool × WriteState) :=
  let clusterOffset := offset % fs.clusterSize
  let stop := clusterOffset + data.length
  if stop > fs.clusterSize then .ok (false, s)
  else do
    let r ← fs.clusterLookup (offset / fs.clusterSize) s
    if r.1 = 0 then return (false, r.2)
    else
      let t := fs.storeInCluster fs.overwritePartialSector fs.overwriteSector (fs.clusterToSector r.1) clusterOffset data
        r.2.device
      let validLength := if t.ok then max r.2.validLength (alignUp 32 stop fs.sectorSize) else r.2.validLength
      return (t.ok, { r.2 with device := t.device, validLength := validLength })

def appendCluster (offset : Nat) (data : List UInt8) (s : WriteState) : Except Fault (Bool × WriteState) :=
  let clusterOffset := offset % fs.clusterSize
  if s.validLength < offset then .ok (false, s)
  else if clusterOffset + data.length > fs.clusterSize then .ok (false, s)
  else do
    let r ← fs.clusterLookup (offset / fs.clusterSize) s
    if r.1 = 0 then return (false, r.2)
    else
      let t := fs.storeInCluster fs.appendPartialSector fs.appendSector (fs.clusterToSector r.1) clusterOffset data
        r.2.device
      return (t.ok, { r.2 with device := t.device, validLength := u32 (r.2.validLength + t.sectors * fs.sectorSize) })

/-- The loop of `overwriteClusters`, which goes on with at least one byte less. -/
def overwriteClustersFrom : (fuel offset clusterOffset clusterIndex : Nat) → List UInt8 → WriteState →
    Except Fault (Bool × WriteState)
  | 0, _, _, _, _, _ => .error .endless
  | fuel + 1, offset, clusterOffset, clusterIndex, data, s =>
      if data.length = 0 then .ok (true, s)
      else do
        let r ← fs.clusterLookup clusterIndex s
        if r.1 = 0 then return (false, r.2)
        else
          let length := min (fs.clusterSize - clusterOffset) (u32 data.length)
          -- the result of the write is not looked at
          let w ← fs.overwriteCluster offset (data.take length) r.2
          overwriteClustersFrom fuel (u32 (offset + length)) 0 (clusterIndex + 1) (data.drop length) w.2

def overwriteClusters (offset : Nat) (data : List UInt8) (s : WriteState) : Except Fault (Bool × WriteState) :=
  if offset + data.length > s.validLength then .ok (false, s)
  else
    fs.overwriteClustersFrom (data.length + 1) offset (offset % fs.clusterSize) (offset / fs.clusterSize) data s

/-- A new cluster at the end of the chain, whose last cluster is `lastCluster`, if it has one; zero if no cluster
is free. -/
def extendChain (lastClusterIndex lastCluster : Nat) (s : WriteState) : Except Fault (Nat × WriteState) := do
  let r ← fs.findFreeCluster s.device true
  if r.1 = 0 then return (0, { s with device := r.2 })
  else
    let d ← if lastCluster ≠ 0 then fs.writeClusterChainLink r.2 lastCluster r.1 else pure r.2
    let info := if lastClusterIndex = 0 ∧ lastCluster = 0 then s.info.setCluster r.1 else s.info
    return (r.1, { s with device := d, info := info })

/-- The loop of `appendClusters`. -/
def appendClustersFrom : (fuel offset clusterOffset clusterIndex lastClusterIndex lastCluster : Nat) → List UInt8 →
    WriteState → Except Fault (Bool × WriteState)
  | 0, _, _, _, _, _, _, _ => .error .endless
  | fuel + 1, offset, clusterOffset, clusterIndex, lastClusterIndex, lastCluster, data, s =>
      if data.length = 0 then .ok (true, s)
      else do
        let extend := lastCluster = 0 ∨ lastClusterIndex < clusterIndex
        let r ← if extend then fs.extendChain lastClusterIndex lastCluster s else pure (lastCluster, s)
        if r.1 = 0 then return (false, r.2)
        else
          let length := min (fs.clusterSize - clusterOffset) (u32 data.length)
          -- the result of the write is not looked at
          let w ← fs.appendCluster offset (data.take length) r.2
          appendClustersFrom fuel (u32 (offset + length)) 0 (clusterIndex + 1)
            (if extend then lastClusterIndex + 1 else lastClusterIndex) r.1 (data.drop length) w.2

def appendClusters (offset : Nat) (data : List UInt8) (s : WriteState) : Except Fault (Bool × WriteState) := do
  let validClusterCount := s.validLength / fs.clusterSize
  let lastClusterIndex := validClusterCount - 1
  let r ← if validClusterCount > 0 then fs.clusterLookup lastClusterIndex s else pure (0, s)
  if offset / fs.clusterSize < lastClusterIndex then return (false, r.2)
  else if offset > r.2.validLength then return (false, r.2)
  else
    fs.appendClustersFrom (data.length + 1) offset (offset % fs.clusterSize) (offset / fs.clusterSize) lastClusterIndex
      r.1 data r.2

/-- Whether the write succeeded, and the device and the object after it. -/
def write (fuel offset : Nat) (data : List UInt8) (d : BlockDev) (info : ObjectInfo) :
    Except Fault (Bool × WriteState) := do
  let sectorCount ← info.sectorCount fs d fuel
  let stop := offset + data.length
  let validLength := u32 (fs.sectorSize * sectorCount)
  let boundary := validLength &&& alignMask 32 fs.clusterSize
  let overwriteLength := if offset < boundary then u32 (min (u32 stop) boundary + (2 ^ 32 - offset)) else 0
  let s : WriteState := ⟨d, info, ⟨0, 0⟩, validLength⟩
  let r ← if offset < boundary then fs.overwriteClusters offset (data.take overwriteLength) s else pure (true, s)
  if !r.1 then return (false, r.2)
  else
    let r ← if stop > boundary then fs.appendClusters (max offset boundary) (data.drop overwriteLength) r.2
      else pure (true, r.2)
    if !r.1 then return (false, r.2)
    else
      let info := if r.2.info.type = .file then r.2.info.setSize (max (u32 stop) r.2.info.dirent.size) else r.2.info
      return (true, { r.2 with info := info })

end Filesystem

end XviOs.Fat
