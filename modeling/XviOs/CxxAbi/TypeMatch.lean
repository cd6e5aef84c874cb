import XviOs.Dwarf.CFI

namespace XviOs.CxxAbi

open Dwarf (Memory)

/-- `__base_class_type_info` without the type itself. -/
structure BaseClassTypeInfo where
  offsetFlags : BitVec 64
  deriving DecidableEq

def virtualMask : BitVec 64 := 0x01
def publicMask : BitVec 64 := 0x02
def offsetShift : Nat := 8

def BaseClassTypeInfo.getOffset (info : BaseClassTypeInfo) : BitVec 64 := info.offsetFlags.sshiftRight offsetShift

def BaseClassTypeInfo.getFlags (info : BaseClassTypeInfo) : BitVec 64 :=
  info.offsetFlags &&& (BitVec.ofNat 64 offsetShift - 1)

def BaseClassTypeInfo.isVirtual (info : BaseClassTypeInfo) : Bool := info.getFlags &&& virtualMask ≠ 0

def BaseClassTypeInfo.isPublic (info : BaseClassTypeInfo) : Bool := info.getFlags &&& publicMask ≠ 0

def nonDiamondRepeatMask : BitVec 32 := 0x01

/-- The type information of classes: without a base, with a single public base at the start, and with any bases. Types
are equal when their names are. -/
inductive ClassTypeInfo (Name : Type)
  | classTypeInfo (name : Name)
  | siClassTypeInfo (name : Name) (baseType : ClassTypeInfo Name)
  | vmiClassTypeInfo (name : Name) (flags : BitVec 32) (baseInfo : List (BaseClassTypeInfo × ClassTypeInfo Name))

def ClassTypeInfo.name {Name : Type} : ClassTypeInfo Name → Name
  | .classTypeInfo name | .siClassTypeInfo name _ | .vmiClassTypeInfo name _ _ => name

inductive TypeInfoWalkResult
  | recurse | noRecurse | skipSiblings | done
  deriving DecidableEq

section Walk

variable {Name S C : Type}

/-- The callback of a walk. It changes the state for the types below, and what it has captured. The parent comes with
the index of the base. -/
abbrev WalkCallback (Name S C : Type) :=
  S → ClassTypeInfo Name → Option (ClassTypeInfo Name × Nat) → C → TypeInfoWalkResult × S × C

variable (cb : WalkCallback Name S C)

mutual

def walkTypeInfoTree : ClassTypeInfo Name → S → Option (ClassTypeInfo Name × Nat) → C → TypeInfoWalkResult × C
  | .classTypeInfo name, state, parent, captured =>
    match cb state (.classTypeInfo name) parent captured with
    | (.noRecurse, _, captured) | (.recurse, _, captured) => (.recurse, captured)
    | (result, _, captured) => (result, captured)
  | .siClassTypeInfo name baseType, state, parent, captured =>
    match cb state (.siClassTypeInfo name baseType) parent captured with
    | (.noRecurse, _, captured) => (.recurse, captured)
    | (.recurse, state, captured) =>
      match walkTypeInfoTree baseType state (some (.siClassTypeInfo name baseType, 0)) captured with
      | (.done, captured) => (.done, captured)
      | (_, captured) => (.recurse, captured)
    | (result, _, captured) => (result, captured)
  | .vmiClassTypeInfo name flags baseInfo, state, parent, captured =>
    match cb state (.vmiClassTypeInfo name flags baseInfo) parent captured with
    | (.noRecurse, _, captured) => (.recurse, captured)
    | (.recurse, state, captured) =>
      walkBases (.vmiClassTypeInfo name flags baseInfo) state baseInfo 0 .recurse captured
    | (result, _, captured) => (result, captured)

/-- The loop over the bases of a class from an index on. -/
def walkBases (root : ClassTypeInfo Name) (state : S) :
    List (BaseClassTypeInfo × ClassTypeInfo Name) → Nat → TypeInfoWalkResult → C → TypeInfoWalkResult × C
  | [], _, result, captured => (result, captured)
  | (_, baseType) :: bases, i, _, captured =>
    match walkTypeInfoTree baseType state (some (root, i)) captured with
    | (.done, captured) => (.done, captured)
    | (.skipSiblings, captured) => (.recurse, captured)
    | (result, captured) => walkBases root state bases (i + 1) result captured

end

end Walk

structure TiPathInfo where
  objectPtr : BitVec 64
  isPublic : Bool := true
  isVirtual : Bool := false
  noRepeatedBases : Bool := false

section FindPathToBase

variable {Name : Type} [DecidableEq Name] (m : Memory)

/-- The offset of a virtual base, which the virtual table of the object has. -/
def virtualBaseOffset (objectPtr offset : BitVec 64) : BitVec 64 := m.word (m.word objectPtr 8 + offset) 8

/-- The adjustment for the way in which a class is inherited. -/
def TiPathInfo.adjust (info : TiPathInfo) (base : BaseClassTypeInfo) : TiPathInfo :=
  { info with
    isPublic := info.isPublic && base.isPublic
    isVirtual := info.isVirtual || base.isVirtual
    objectPtr :=
      if info.objectPtr = 0 then 0
      else if base.isVirtual then info.objectPtr + virtualBaseOffset m info.objectPtr base.getOffset
      else info.objectPtr + base.getOffset }

/-- Only in classes with any bases are these adjusted for. -/
def TiPathInfo.enter (info : TiPathInfo) : Option (ClassTypeInfo Name × Nat) → TiPathInfo
  | some (.vmiClassTypeInfo _ _ baseInfo, index) =>
    match baseInfo[index]? with
    | some (base, _) => info.adjust m base
    | none => info
  | _ => info

/-- The callback of `findPathToBase`, which captures the candidate. -/
def visit (base : Name) : WalkCallback Name TiPathInfo (Option TiPathInfo) := fun info ti parent candidate =>
  let info := info.enter m parent
  if ti.name = base then
    let stop := if info.noRepeatedBases then .skipSiblings else .noRecurse
    match candidate with
    | none => (stop, info, some info)
    | some old =>
      if !info.isVirtual || !old.isVirtual || info.objectPtr ≠ old.objectPtr then (.done, info, none)
      -- the access of the candidate is named here, but nothing is assigned to it
      else (stop, info, some old)
  else
    match ti with
    | .vmiClassTypeInfo _ flags _ =>
      (.recurse, { info with noRepeatedBases := flags &&& nonDiamondRepeatMask = 0 }, candidate)
    | _ => (.recurse, info, candidate)

def findPathToBase (base : Name) (derived : ClassTypeInfo Name) (objPointer : BitVec 64) : Option TiPathInfo :=
  (walkTypeInfoTree (visit m base) derived { objectPtr := objPointer } none none).2

def isUnambiguousPublicBase (base : Name) (derived : ClassTypeInfo Name) (object : BitVec 64) : Option (BitVec 64) :=
  match findPathToBase m base derived object with
  | none => none
  | some path => if path.isPublic then some (path.objectPtr - object) else none

inductive CxaTypeMatchResult
  | failed | succeeded | succeededWithPtrToBase
  deriving DecidableEq

/-- The match of a thrown class with the class of a clause. Of that only the name is read. -/
def typesMatchForCatch (exceptionType : ClassTypeInfo Name) (catchType : Name) (object : BitVec 64) :
    CxaTypeMatchResult × BitVec 64 :=
  if exceptionType.name = catchType then (.succeeded, 0)
  else
    match isUnambiguousPublicBase m catchType exceptionType object with
    | some adjust => (.succeeded, adjust)
    | none => (.failed, 0)

end FindPathToBase

end XviOs.CxxAbi
