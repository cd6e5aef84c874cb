import Mathlib.Data.List.DropRight
import XviOs.Fat.Filesystem

namespace XviOs.Fat

/-- The 32 bytes of a directory entry, which `dirent_t` and `lfn_dirent_t` are two
views of. -/
structure Dirent where
  bytes : Vector UInt8 32
  deriving DecidableEq

def directoryEntryUnused : UInt8 := 0xE5
def directoryEntryEnd : UInt8 := 0x00
def directoryEntryEscaped : UInt8 := 0x05
def directoryEntryLastLFNBit : UInt8 := 0x40

def attributeVolumeLabel : UInt8 := 0x08
def attributeDirectory : UInt8 := 0x10
def attributeMask : UInt8 := 0x2F
def attributeLFN : UInt8 := 0x0F

namespace Dirent

def byte (e : Dirent) (i : Fin 32) : UInt8 := e.bytes.get i

/-- The little-endian 16-bit field at the bytes `i` and `j`. -/
def field16 (e : Dirent) (i j : Fin 32) : Nat := (e.byte i).toNat + 256 * (e.byte j).toNat

def setField16 (e : Dirent) (i j : Fin 32) (v : Nat) : Dirent :=
  ⟨(e.bytes.set i (UInt8.ofNat v)).set j (UInt8.ofNat (v / 256))⟩

def attributes (e : Dirent) : UInt8 := e.byte 11
def clusterHigh (e : Dirent) : Nat := e.field16 20 21
def clusterLow (e : Dirent) : Nat := e.field16 26 27
def size (e : Dirent) : Nat := e.field16 28 29 + 65536 * e.field16 30 31

def getStartCluster (e : Dirent) : Nat := 65536 * e.clusterHigh + e.clusterLow

def setSize (e : Dirent) (size : Nat) : Dirent := (e.setField16 28 29 size).setField16 30 31 (size / 65536)

def setCluster (e : Dirent) (cluster : Nat) : Dirent :=
  (e.setField16 26 27 cluster).setField16 20 21 (cluster / 65536)

def hasAttribute (e : Dirent) (flag : UInt8) : Bool := e.attributes &&& flag != 0

def isLFNEntry (e : Dirent) : Bool := e.attributes &&& attributeMask == attributeLFN

def ordinal (e : Dirent) : UInt8 := e.byte 0
def type (e : Dirent) : UInt8 := e.byte 12
def checksum (e : Dirent) : UInt8 := e.byte 13

def isLastLFNEntry (e : Dirent) : Bool := e.isLFNEntry && e.ordinal &&& directoryEntryLastLFNBit != 0

def nameBase (e : Dirent) : List UInt8 := (List.finRange 8).map (fun i => e.byte (i.castLE (by decide)))
def nameExt (e : Dirent) : List UInt8 := [e.byte 8, e.byte 9, e.byte 10]

/-- The base name with the escape of a first byte 0xE5 undone. -/
def getNameBase (e : Dirent) : List UInt8 :=
  match e.nameBase with
  | c :: cs => (if c = directoryEntryEscaped then 0xE5 else c) :: cs
  | [] => []

/-- The name without the spaces at its end. -/
def trimSpaces (name : List UInt8) : List UInt8 := name.rdropWhile (· == 0x20)

def nameBaseLength (e : Dirent) : Nat := (trimSpaces e.nameBase).length
def nameExtensionLength (e : Dirent) : Nat := (trimSpaces e.nameExt).length

/-- The first byte says that no entry from here on is in use. -/
def IsEnd (e : Dirent) : Prop := e.byte 0 = directoryEntryEnd

def IsUnused (e : Dirent) : Prop := e.byte 0 = directoryEntryUnused

/-- An entry in use that is not part of a long name. -/
def IsShort (e : Dirent) : Prop := ¬ e.IsEnd ∧ ¬ e.IsUnused ∧ e.isLFNEntry = false

instance (e : Dirent) : Decidable e.IsEnd := inferInstanceAs (Decidable (_ = _))
instance (e : Dirent) : Decidable e.IsUnused := inferInstanceAs (Decidable (_ = _))
instance (e : Dirent) : Decidable e.IsShort := inferInstanceAs (Decidable (_ ∧ _))

end Dirent

/-- The 13 characters of a part of a long name. -/
def LfnState.extractChars (e : Dirent) : List UInt16 :=
  [e.field16 1 2, e.field16 3 4, e.field16 5 6, e.field16 7 8, e.field16 9 10,
    e.field16 14 15, e.field16 16 17, e.field16 18 19, e.field16 20 21, e.field16 22 23, e.field16 24 25,
    e.field16 28 29, e.field16 30 31].map UInt16.ofNat

end XviOs.Fat

namespace XviOs.Fat

def charsPerLFNEntry : Nat := 13
def minLFNOrdinal : Nat := 1
def maxLFNOrdinal : Nat := 21
def maxLFNNameLength : Nat := 255

/-- What the enumeration of a directory keeps of the long name that it reads
(`lfn_state_t`). -/
structure LfnState where
  lfn : Vector UInt16 255
  length : Nat
  ordinal : Nat
  checksum : UInt8
  deriving DecidableEq

namespace LfnState

def empty : LfnState := ⟨Vector.replicate 255 0, 0, 0, 0⟩

/-- The array with `chars` written from index `start` on. -/
def copyChars (lfn : Vector UInt16 255) (start : Nat) (chars : List UInt16) : Vector UInt16 255 :=
  Vector.ofFn (fun i => if start ≤ i then chars.getD (i - start) lfn[i] else lfn[i])

/-- The index of the last character up to `offset` that is no padding. -/
def lastChar (chars : List UInt16) : Nat → Nat
  | 0 => 0
  | offset + 1 => if chars.getD (offset + 1) 0 = 0xFFFF then lastChar chars offset else offset + 1

/-- Whether the entry was accepted, and the state after it. -/
def applyLastLFNEntry (s : LfnState) (e : Dirent) : Bool × LfnState :=
  if e.ordinal &&& directoryEntryLastLFNBit = 0 then (false, s)
  else
    let ord := (e.ordinal &&& ~~~directoryEntryLastLFNBit).toNat
    if ord > maxLFNOrdinal ∨ ord < minLFNOrdinal then (false, s)
    else if e.type ≠ 0 then (false, s)
    else
      let s := { s with lfn := empty.lfn, ordinal := ord - 1, checksum := e.checksum }
      let chars := extractChars e
      let offset := lastChar chars (charsPerLFNEntry - 1)
      let offset := if offset > 0 ∧ chars.getD offset 0 = 0 then offset - 1 else offset
      let len := s.ordinal * charsPerLFNEntry + offset + 1
      if len > maxLFNNameLength then (false, s)
      else (true, { s with
        length := len
        lfn := copyChars s.lfn (s.ordinal * charsPerLFNEntry) (chars.take (offset + 1)) })

def applyLFNEntry (s : LfnState) (e : Dirent) : Except Fault (Bool × LfnState) :=
  if e.ordinal &&& directoryEntryLastLFNBit ≠ 0 then .ok (false, s)
  else if e.ordinal.toNat ≠ s.ordinal then .ok (false, s)
  else if e.type ≠ 0 then .ok (false, s)
  else if e.checksum ≠ s.checksum then .ok (false, s)
  -- the ordinal counts from one, and the characters of each part have to fit
  else if s.ordinal = 0 ∨ (s.ordinal - 1) * charsPerLFNEntry + charsPerLFNEntry > maxLFNNameLength then
    .error .outOfBounds
  else .ok (true, { s with
    lfn := copyChars s.lfn ((s.ordinal - 1) * charsPerLFNEntry) (extractChars e)
    ordinal := s.ordinal - 1 })

/-- The checksum of the eleven bytes of a short name. -/
def shortNameChecksum (e : Dirent) : UInt8 :=
  (e.nameBase ++ e.nameExt).foldl (fun sum c => (sum >>> 1 ||| sum <<< 7) + c) 0

/-- The length `length` without the padding at the end of the name. -/
def trimPadding (lfn : Vector UInt16 255) : Nat → Nat
  | 0 => 0
  | length + 1 => if lfn.getD length 0 = 0xFFFF then trimPadding lfn length else length + 1

def validateShortNameEntry (s : LfnState) (e : Dirent) : Bool × LfnState :=
  if s.ordinal ≠ 0 then (false, s)
  else if shortNameChecksum e ≠ s.checksum then (false, s)
  else
    let length := trimPadding s.lfn s.length
    let length := if length > 0 ∧ s.lfn.getD (length - 1) 0 = 0 then length - 1 else length
    let s := { s with length := length }
    if length = 0 ∨ (length = 1 ∧ (s.lfn.getD 0 0 = 0 ∨ s.lfn.getD 0 0 = 0xFFFF)) then (false, s)
    else (true, s)

end LfnState

/-- What the enumeration does next after an entry. -/
inductive Scan
  /-- the entry ends the directory -/
  | finished
  /-- the entry is not in use, or part of a long name -/
  | skipped (s : LfnState)
  /-- the entry is in use; `s` holds its long name, if it has one -/
  | found (s : LfnState)
  deriving DecidableEq

/-- The part of the loop over the entries of a sector that comes before the callback. -/
def LfnState.scan (s : LfnState) (e : Dirent) : Except Fault Scan :=
  if e.IsEnd then .ok .finished
  else if e.IsUnused then .ok (.skipped .empty)
  else if e.isLFNEntry then
    if e.isLastLFNEntry then .ok (.skipped (LfnState.empty.applyLastLFNEntry e).2)
    else do
      let r ← s.applyLFNEntry e
      return .skipped (if r.1 then r.2 else .empty)
  else if s.length > 0 then
    let r := s.validateShortNameEntry e
    .ok (.found (if r.1 then r.2 else .empty))
  else .ok (.found s)

/-- The long-name state machine run over the entries, up to the one that ends the
directory. -/
def LfnState.process (s : LfnState) : List Dirent → Except Fault LfnState
  | [] => .ok s
  | e :: es => do
      match ← s.scan e with
      | .finished => return s
      | .skipped s => s.process es
      | .found s => s.process es

end XviOs.Fat
