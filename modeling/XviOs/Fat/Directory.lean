import XviOs.Fat.LongName
import XviOs.Fat.Write
import XviOs.Library.LastStep

namespace XviOs.Fat

open Library.LittleEndian

def direntSize : Nat := 32

/-- The directory entry with the index `i` of a block. -/
def direntAt (data : Bytes) (i : Nat) : Dirent := ⟨Vector.ofFn fun j : Fin 32 => data (direntSize * i + j)⟩

/-- A unit of the name is cut down to one byte. -/
def convertFromUTF16 (name : List UInt16) : List UInt8 := name.map UInt16.toUInt8
/-- Nothing is converted yet. -/
def convertFromFilesystemCharset (name : List UInt8) : List UInt8 := name

/-- The object of an entry, with the long name if there is one. -/
def createObjectInfo (e : Dirent) (s : LfnState) : ObjectInfo :=
  let base := e.getNameBase.take e.nameBaseLength
  let ext := e.nameExt.take e.nameExtensionLength
  let name :=
    if s.length > 0 then convertFromUTF16 (s.lfn.toList.take s.length)
    else convertFromFilesystemCharset (base ++ if ext.length > 0 then 0x2E :: ext else [])
  .ofDirent name e

/-- What the callback of an enumeration decides about an entry. -/
structure Decision (β : Type) where
  more : Bool
  update : Bool
  info : ObjectInfo
  state : β

/-- What an enumeration works on: the device, the object of the directory itself, the long name that is being read,
and the state of the callback. -/
structure Enumeration (β : Type) where
  device : BlockDev
  self : ObjectInfo
  lfn : LfnState
  state : β

namespace Filesystem

variable (fs : Filesystem) {β : Type} (fuel : Nat)

/-- The loop over the next `n` entries of a block with the offset `offset`; whether the enumeration goes on. -/
def enumerateEntries (callback : ObjectInfo → β → Decision β) (offset : Nat) (data : Bytes) :
    (n i : Nat) → Enumeration β → Except Fault (Bool × Enumeration β)
  | 0, _, s => .ok (true, s)
  | n + 1, i, s => do
      match ← s.lfn.scan (direntAt data i) with
      | .finished => return (false, s)
      | .skipped lfn => enumerateEntries callback offset data n (i + 1) { s with lfn := lfn }
      | .found lfn =>
          let r := callback (createObjectInfo (direntAt data i) lfn) s.state
          let s : Enumeration β := { s with lfn := lfn, state := r.state }
          let s ← if r.update then do
              -- the result of the write is not looked at
              let w ← fs.write fuel (u32 (offset + direntSize * i)) r.info.dirent.bytes.toList s.device s.self
              pure { s with device := w.2.device, self := w.2.info }
            else pure s
          if r.more then enumerateEntries callback offset data n (i + 1) s else return (false, s)

def enumerateInternal (d : BlockDev) (self : ObjectInfo) (callback : ObjectInfo → β → Decision β) (b : β) :
    Except Fault (Enumeration β) :=
  fs.readBlocks Enumeration.device fuel self 0 (2 ^ 32 - 1)
    (fun offset data => fs.enumerateEntries fuel callback offset data (fs.sectorSize / direntSize) 0)
    ⟨d, self, .empty, b⟩

/-- The callback of `find`, through that of `enumerate`. -/
def findCallback (name : List UInt8) (info : ObjectInfo) (entry : Option ObjectInfo) : Decision (Option ObjectInfo) :=
  if info.name = name then ⟨false, false, info, some info⟩ else ⟨true, false, info, entry⟩

def find (d : BlockDev) (self : ObjectInfo) (name : List UInt8) : Except Fault (Option ObjectInfo) := do
  let s ← fs.enumerateInternal fuel d self (findCallback name) none
  return s.state

/-- The callback of `updateObjectMetadata`. -/
def updateCallback (updated info : ObjectInfo) (success : Bool) : Decision Bool :=
  if updated.name = info.name then ⟨false, true, info.setMetadata updated, true⟩ else ⟨true, false, info, success⟩

/-- Whether the update reports success, and the device and the object of the directory after it. -/
def updateObjectMetadata (d : BlockDev) (self updated : ObjectInfo) : Except Fault (Bool × BlockDev × ObjectInfo) := do
  let s ← fs.enumerateInternal fuel d self (updateCallback updated) false
  return (s.state, s.device, s.self)

end Filesystem

end XviOs.Fat

namespace XviOs.Fat

open Library.LittleEndian Library.LastStep

/-- An entry with the name, at the offset in its directory. -/
structure Found (name : List UInt8) where
  offset : Nat
  info : ObjectInfo
  name_eq : info.name = name

/-- The search for a name in a directory: the long name that is being read, and the entry once it is found. -/
structure Search (name : List UInt8) where
  lfn : LfnState
  found : Option (Found name)

namespace Filesystem

variable {fs : Filesystem} {d : BlockDev} {self updated : ObjectInfo} {name : List UInt8} {fuel : Nat}

/-! ## Walks over blocks with a last step -/

section Walks

variable {α β : Type} {going : α → Prop} {inj : α → β} {last : α → Except Fault β} {device : β → BlockDev}
  {cb : Nat → Bytes → α → Except Fault (Bool × α)} {cb' : Nat → Bytes → β → Except Fault (Bool × β)}

theorem follows_readClusterSectors (hdevice : ∀ s, going s → device (inj s) = d)
    (hlast : ∀ s, going s → last s = .ok (inj s))
    (h : ∀ offset data, Follows going inj last (cb offset data) (cb' offset data))
    (firstSector lastSector sector sectorIndex n i : Nat) :
    Follows going inj last (fs.readClusterSectors (fun _ => d) firstSector lastSector sector sectorIndex cb n i)
      (fs.readClusterSectors device firstSector lastSector sector sectorIndex cb' n i) := by
  induction n generalizing i with
  | zero => exact .stay true hlast
  | succ n ih =>
      refine .ite (ih (i + 1)) (.ite (.stay true hlast) (.bind (fun s hs => ?_) fun data => ?_))
      · rw [hdevice s hs]
      · exact .andThen hlast (h _ data) (ih (i + 1))

theorem concludes_readRootDirSectors (hdevice : ∀ s, going s → device (inj s) = d)
    (hlast : ∀ s, going s → last s = .ok (inj s))
    (h : ∀ offset data, Follows going inj last (cb offset data) (cb' offset data)) (offset startSector n i : Nat) :
    Concludes going inj last (fs.readRootDirSectors (fun _ => d) offset startSector cb n i)
      (fs.readRootDirSectors device offset startSector cb' n i) := by
  induction n generalizing i with
  | zero => exact .stay hlast
  | succ n ih =>
      refine .bind (fun s hs => ?_) (fun data => ?_)
      · rw [hdevice s hs]
      · exact Follows.conclude hlast (h _ data) (fun _ => rfl) (fun _ => rfl) (ih (i + 1))

theorem concludes_readClusterChain (hdevice : ∀ s, going s → device (inj s) = d)
    (hlast : ∀ s, going s → last s = .ok (inj s)) {f : Nat → Nat → α → Except Fault (Bool × α)}
    {g : Nat → Nat → β → Except Fault (Bool × β)} (h : ∀ n cluster, Follows going inj last (f n cluster) (g n cluster))
    (index cluster : Nat) :
    Concludes going inj last (fs.readClusterChain (fun _ => d) f fuel index cluster)
      (fs.readClusterChain device g fuel index cluster) := by
  induction fuel generalizing index cluster with
  | zero => exact fun _ _ => rfl
  | succ fuel ih =>
      refine .bind (fun s hs => ?_) (fun next => .ite (.stay hlast) (.ite (.stay hlast) ?_))
      · rw [hdevice s hs]
      · refine Follows.conclude hlast (h index cluster) (fun _ => rfl) (fun _ => rfl) ?_
        exact .ite (.stay hlast) (ih (index + 1) next)

theorem concludes_readBlocks (hdevice : ∀ s, going s → device (inj s) = d)
    (hlast : ∀ s, going s → last s = .ok (inj s))
    (h : ∀ offset data, Follows going inj last (cb offset data) (cb' offset data)) (offset length : Nat) :
    Concludes going inj last (fs.readBlocks (fun _ => d) fuel self offset length cb)
      (fs.readBlocks device fuel self offset length cb') := by
  refine .bind (fun s hs => ?_) (fun size => .ite (.stay hlast) (.ite ?_ ?_))
  · rw [hdevice s hs]
  · exact concludes_readRootDirSectors hdevice hlast h _ _ _ _
  · refine concludes_readClusterChain hdevice hlast (fun n cluster => ?_) _ _
    exact .ite (.stay false hlast) (.ite (.stay true hlast) (follows_readClusterSectors hdevice hlast h _ _ _ _ _ _))

end Walks

/-! ## The search that an enumeration makes -/

/-- The search in the next `n` entries of a block with the offset `offset`. -/
def searchEntries (name : List UInt8) (offset : Nat) (data : Bytes) :
    (n i : Nat) → Search name → Except Fault (Bool × Search name)
  | 0, _, s => .ok (true, s)
  | n + 1, i, s => do
      match ← s.lfn.scan (direntAt data i) with
      | .finished => return (false, s)
      | .skipped lfn => searchEntries name offset data n (i + 1) { s with lfn := lfn }
      | .found lfn =>
          let info := createObjectInfo (direntAt data i) lfn
          if h : info.name = name then return (false, ⟨lfn, some ⟨u32 (offset + direntSize * i), info, h⟩⟩)
          else searchEntries name offset data n (i + 1) { s with lfn := lfn }

/-- The search for a name over the blocks that an enumeration goes over. -/
def locate (fs : Filesystem) (fuel : Nat) (d : BlockDev) (self : ObjectInfo) (name : List UInt8) :
    Except Fault (Search name) :=
  fs.readBlocks (fun _ => d) fuel self 0 (2 ^ 32 - 1)
    (fun offset data => searchEntries name offset data (fs.sectorSize / direntSize) 0) ⟨.empty, none⟩

section Enumerate

variable {β : Type} {callback : ObjectInfo → β → Decision β} {b : β}

/-- What an enumeration does with the entry that the search has found. -/
def handleFound (fs : Filesystem) (fuel : Nat) (d : BlockDev) (self : ObjectInfo) (callback : ObjectInfo → β → Decision β)
    (b : β) (s : Search name) : Except Fault (Enumeration β) :=
  match s.found with
  | none => .ok ⟨d, self, s.lfn, b⟩
  | some e =>
      let r := callback e.info b
      if r.update then do
        let w ← fs.write fuel e.offset r.info.dirent.bytes.toList d self
        return ⟨w.2.device, w.2.info, s.lfn, r.state⟩
      else return ⟨d, self, s.lfn, r.state⟩

/-- The callback goes on at the entries with other names, and stops at one with this name. -/
structure StopsAt (name : List UInt8) (callback : ObjectInfo → β → Decision β) (b : β) : Prop where
  skips : ∀ info, info.name ≠ name → callback info b = ⟨true, false, info, b⟩
  stops : ∀ info, info.name = name → (callback info b).more = false

theorem handleFound_none {s : Search name} (h : s.found = none) :
    fs.handleFound fuel d self callback b s = .ok ⟨d, self, s.lfn, b⟩ := by
  rw [handleFound, h]

theorem follows_enumerateEntries (h : StopsAt name callback b) (offset : Nat) (data : Bytes) (n i : Nat) :
    Follows (fun s => s.found = none) (fun s => ⟨d, self, s.lfn, b⟩) (fs.handleFound fuel d self callback b)
      (searchEntries name offset data n i) (fs.enumerateEntries fuel callback offset data n i) := by
  induction n generalizing i with
  | zero => exact .stay true fun s hs => handleFound_none hs
  | succ n ih =>
      constructor
      · intro s hs
        rw [searchEntries, enumerateEntries]
        cases s.lfn.scan (direntAt data i) with
        | error e => rfl
        | ok scan =>
            cases scan with
            | finished =>
                simp only [bind, Except.bind, pure, Except.pure, handleFound_none hs]
            | skipped lfn => exact (ih (i + 1)).step { s with lfn := lfn } hs
            | found lfn =>
                have hgo := (ih (i + 1)).step { s with lfn := lfn } hs
                simp only [bind, Except.bind, pure, Except.pure] at hgo ⊢
                by_cases hname : (createObjectInfo (direntAt data i) lfn).name = name
                · rw [dif_pos hname]
                  simp only [handleFound, h.stops _ hname, bind, Except.bind, pure, Except.pure]
                  split
                  · cases fs.write fuel _ _ d self <;> rfl
                  · rfl
                · rw [dif_neg hname, h.skips _ hname]
                  exact hgo
      · intro s s' hs hr
        rw [searchEntries] at hr
        cases hscan : s.lfn.scan (direntAt data i) with
        | error e =>
            rw [hscan] at hr
            cases hr
        | ok scan =>
            rw [hscan] at hr
            cases scan with
            | finished => cases hr
            | skipped lfn => exact (ih (i + 1)).goes { s with lfn := lfn } s' hs hr
            | found lfn =>
                simp only [bind, Except.bind, pure, Except.pure] at hr
                split at hr
                · cases hr
                · exact (ih (i + 1)).goes { s with lfn := lfn } s' hs hr

theorem enumerateInternal_eq (h : StopsAt name callback b) :
    fs.enumerateInternal fuel d self callback b =
      fs.locate fuel d self name >>= fs.handleFound fuel d self callback b := by
  have hruns : Concludes (fun s : Search name => s.found = none) (fun s => ⟨d, self, s.lfn, b⟩)
      (fs.handleFound fuel d self callback b)
      (fs.readBlocks (fun _ => d) fuel self 0 (2 ^ 32 - 1) fun offset data =>
        searchEntries name offset data (fs.sectorSize / direntSize) 0)
      (fs.readBlocks Enumeration.device fuel self 0 (2 ^ 32 - 1) fun offset data =>
        fs.enumerateEntries fuel callback offset data (fs.sectorSize / direntSize) 0) := by
    refine concludes_readBlocks ?_ ?_ ?_ 0 (2 ^ 32 - 1)
    · exact fun _ _ => rfl
    · exact fun _ hs => handleFound_none hs
    · exact fun offset data => follows_enumerateEntries h offset data _ 0
  exact hruns ⟨.empty, none⟩ rfl

end Enumerate

theorem find_eq (fs : Filesystem) (fuel : Nat) (d : BlockDev) (self : ObjectInfo) (name : List UInt8) :
    fs.find fuel d self name = (do
      let s ← fs.locate fuel d self name
      return s.found.map Found.info) := by
  have hstops : StopsAt name (findCallback name) none :=
    ⟨fun info hname => if_neg hname, fun info hname => by rw [findCallback, if_pos hname]⟩
  rw [find, enumerateInternal_eq hstops]
  cases fs.locate fuel d self name with
  | error e => rfl
  | ok s =>
      rcases s with ⟨lfn, _ | e⟩
      · rfl
      · simp only [bind, Except.bind, handleFound, findCallback, if_pos e.name_eq]
        rfl

/-- The update searches for the entry with the name, and writes it where it found it. -/
theorem updateObjectMetadata_eq (fs : Filesystem) (fuel : Nat) (d : BlockDev) (self updated : ObjectInfo) :
    fs.updateObjectMetadata fuel d self updated = (do
      match (← fs.locate fuel d self updated.name).found with
      | none => return (false, d, self)
      | some e =>
          let w ← fs.write fuel e.offset updated.dirent.bytes.toList d self
          return (true, w.2.device, w.2.info)) := by
  have hstops : StopsAt updated.name (updateCallback updated) false :=
    ⟨fun info hname => if_neg fun h => hname h.symm, fun info hname => by rw [updateCallback, if_pos hname.symm]⟩
  rw [updateObjectMetadata, enumerateInternal_eq hstops]
  cases fs.locate fuel d self updated.name with
  | error e => rfl
  | ok s =>
      rcases s with ⟨lfn, _ | e⟩
      · rfl
      · simp only [bind, Except.bind, handleFound, updateCallback, if_pos e.name_eq.symm, ObjectInfo.setMetadata,
          if_true]
        cases fs.write fuel e.offset updated.dirent.bytes.toList d self <;> rfl

end Filesystem

end XviOs.Fat
