import Mathlib.Tactic
import XviOs.Library.Runs
import XviOs.Fat.Filesystem

namespace XviOs.Storage

open Library.LittleEndian
open Fat (BlockDev)

/-- `BlockHandle`: whether it has a cache, the address of its block's record, and the buffer that it spans. -/
structure BlockHandle where
  cache : Bool := false
  metadata : Nat := 0
  span : Option Nat := none
  deriving DecidableEq

/-- `FallbackBlockCache::BlockInfo`. -/
structure BlockInfo where
  refcount : Nat
  buffer : Bytes
  device : Nat
  lba : Nat
  writeback : Bool

/-- The release of a block, with the write to a device that it came with. -/
structure Release where
  block : Nat
  write : Option (Nat × Nat × Bytes)

/-- The functions of the cache that give blocks. -/
inductive Acquire where
  | read
  | readForUpdate
  | allocateEmpty
  deriving DecidableEq

inductive Errc where
  | notEnoughMemory
  | device
  deriving DecidableEq

/-- The handles of a program, of which the destroyed ones are gone, and the records of the blocks, of which the freed
ones are gone. No address is given to two blocks. What was obtained and what was released is kept for reference. -/
structure State where
  handles : List (Option BlockHandle) := []
  infos : Nat → Option BlockInfo := fun _ => none
  next : Nat := 0
  devices : Nat → BlockDev
  obtained : List (Nat × Acquire) := []
  releases : List Release := []

/-- Where memory runs out in a call, and what new memory holds. -/
structure Memory where
  bufferFails : Nat → Bool
  infoFails : Nat → Bool
  content : Nat → Bytes

namespace State

variable (s : State)

/-- The handle in use at the place. -/
def handle (i : Nat) : Option BlockHandle := s.handles[i]?.join

def setHandles (handles : List (Option BlockHandle)) : State := { s with handles := handles }

def setInfo (b : Nat) (info : Option BlockInfo) : State := { s with infos := Function.update s.infos b info }

/-- `FallbackBlockCache::ref`. Nothing is the result when the record is gone. -/
def cacheRef (h : BlockHandle) : Option State :=
  (s.infos h.metadata).map fun info => s.setInfo h.metadata (some { info with refcount := info.refcount + 1 })

/-- The write that the release of a block comes with. -/
def writeOf (info : BlockInfo) : Option (Nat × Nat × Bytes) :=
  if info.writeback then some (info.device, info.lba, info.buffer) else none

def release (b : Nat) (info : BlockInfo) : State :=
  { s with
    infos := Function.update s.infos b none
    devices :=
      if info.writeback then
        Function.update s.devices info.device ((s.devices info.device).writeBack info.lba info.buffer)
      else s.devices
    releases := s.releases ++ [⟨b, writeOf info⟩] }

/-- `FallbackBlockCache::unref`. -/
def cacheUnref (h : BlockHandle) : Option State :=
  (s.infos h.metadata).map fun info =>
    if info.refcount > 1 then s.setInfo h.metadata (some { info with refcount := info.refcount - 1 })
    else s.release h.metadata info

def ref (h : BlockHandle) : Option State := if !h.cache then some s else s.cacheRef h

def unref (h : BlockHandle) : Option State := if !h.cache then some s else s.cacheUnref h

/-- A handle for the next record, in place of what the place holds. -/
def setHandle (i : Nat) (info : BlockInfo) : State :=
  { s with
    handles := s.handles.set i (some { cache := true, metadata := s.next, span := some s.next })
    infos := Function.update s.infos s.next (some info)
    next := s.next + 1 }

/-- The loop of `read` and `allocateEmpty` from the `i`-th handle on: the count of the blocks, and the error that ended
it. What a block holds is either read or left as the memory was. -/
def acquireLoop (device lba : Nat) (memory : Memory) (content : Nat → Option Bytes) :
    List Nat → Nat → State → State × Nat × Option Errc
  | [], i, s => (s, i, none)
  | place :: out, i, s =>
    if memory.bufferFails i then (s, i, some .notEnoughMemory)
    else
      match content i with
      | none => (s, i, some .device)
      | some buffer =>
        if memory.infoFails i then (s, i, some .notEnoughMemory)
        else
          acquireLoop device lba memory content out (i + 1)
            (s.setHandle place ⟨1, buffer, device, lba, false⟩)

/-- An error after a block is a short count. -/
def resultOf (count : Nat) : Option Errc → Except Errc Nat
  | none => .ok count
  | some error => if count > 0 then .ok count else .error error

def read (device lba : Nat) (memory : Memory) (out : List Nat) : State × Except Errc Nat :=
  let r := acquireLoop device lba memory (fun _ => (s.devices device).readBlock lba) out 0 s
  (r.1, resultOf r.2.1 r.2.2)

/-- The write-back flag of the block of a handle. -/
def markWriteback (i : Nat) : State :=
  match s.handle i with
  | none => s
  | some h => s.setInfo h.metadata ((s.infos h.metadata).map fun info => { info with writeback := true })

def readForUpdate (device lba : Nat) (memory : Memory) (out : List Nat) : State × Except Errc Nat :=
  let r := s.read device lba memory out
  match r.2 with
  | .error error => (r.1, .error error)
  | .ok count => ((out.take count).foldl markWriteback r.1, .ok count)

def allocateEmpty (device lba : Nat) (memory : Memory) (out : List Nat) : State × Except Errc Nat :=
  let r := acquireLoop device lba memory (fun i => some (memory.content i)) out 0 s
  (r.1, resultOf r.2.1 r.2.2)

def acquire (how : Acquire) (device lba : Nat) (memory : Memory) (out : List Nat) : State × Except Errc Nat :=
  match how with
  | .read => s.read device lba memory out
  | .readForUpdate => s.readForUpdate device lba memory out
  | .allocateEmpty => s.allocateEmpty device lba memory out

end State

/-- What a program does with handles. -/
inductive Op where
  | construct
  | acquire (how : Acquire) (device lba : Nat) (memory : Memory) (out : List Nat)
  | copy (j : Nat)
  | move (j : Nat)
  | copyAssign (i j : Nat)
  | moveAssign (i j : Nat)
  | swap (i j : Nat)
  | destroy (i : Nat)
  | write (i : Nat) (data : Bytes)

open State

/-- One step. Nothing is the result when a handle or a record is used that is gone. -/
def step (s : State) : Op → Option State
  | .construct => some (s.setHandles (s.handles ++ [some {}]))
  | .acquire how device lba memory out =>
    let t := (s.acquire how device lba memory out).1
    some { t with obtained := s.obtained ++ (List.range' s.next (t.next - s.next)).map fun b => (b, how) }
  | .copy j => do
    let x ← s.handle j
    (s.setHandles (s.handles ++ [some x])).ref x
  | .move j => do
    let x ← s.handle j
    some (s.setHandles (s.handles.set j (some {}) ++ [some x]))
  | .copyAssign i j => do
    let x ← s.handle j
    let y ← s.handle i
    let t ← (← s.ref x).unref y
    some (t.setHandles (t.handles.set i (some x)))
  | .moveAssign i j =>
    if i = j then some s
    else do
      let x ← s.handle j
      let y ← s.handle i
      let t ← s.unref y
      some (t.setHandles ((t.handles.set j (some {})).set i (some x)))
  | .swap i j => do
    let x ← s.handle i
    let y ← s.handle j
    some (s.setHandles ((s.handles.set i (some y)).set j (some x)))
  | .destroy i => do
    let y ← s.handle i
    let t ← s.unref y
    some (t.setHandles (t.handles.set i none))
  | .write i data => do
    let x ← s.handle i
    match x.span with
    | none => some s
    | some b => (s.infos b).map fun info => s.setInfo b (some { info with buffer := data })

end XviOs.Storage
