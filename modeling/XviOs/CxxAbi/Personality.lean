import XviOs.Dwarf.CFI

namespace XviOs.CxxAbi

open Dwarf

/-- `DwarfPointerDecoder::decode` that preserves null. -/
def decodePreservingNull (m : Memory) (points : RelativePoints) (encoding : BitVec 8) : Reader (BitVec 64) := do
  if encoding = kDwarfPtrOmit ∨ encoding = kDwarfPtrAbs then return (← points.decode m encoding)
  let originalLoc ← get
  match DwPtrType.ofByte (encoding &&& kDwarfPtrTypeMask) with
  | none => return 0
  | some type =>
    let ptr ← readPointer m type
    if ptr = 0 then return 0
    match (DwPtrRel.ofByte (encoding &&& kDwarfPtrRelMask)).bind (points.base originalLoc) with
    | none => return 0
    | some base =>
      if encoding &&& kDwarfPtrIndirect ≠ 0 then return m.word (ptr + base) 8
      return ptr + base

def readByte (m : Memory) : Reader (BitVec 8) := fun ptr => some (m ptr, ptr + 1)

def storeWord (m : Memory) (ptr value : BitVec 64) : Memory := fun x =>
  if (x - ptr).toNat < 8 then (value >>> (8 * (x - ptr).toNat)).setWidth 8 else m x

/-- The frame that a personality routine is called for. The two registers are those for the data of a landing pad. -/
structure Context where
  lsda : BitVec 64
  textRelBase : BitVec 64
  dataRelBase : BitVec 64
  regionStart : BitVec 64
  ip : BitVec 64
  ipBefore : Bool
  gr0 : BitVec 64 := 0
  gr1 : BitVec 64 := 0

structure LsdaHeaderInfo where
  textRelBase : BitVec 64 := 0
  dataRelBase : BitVec 64 := 0
  lsdaRelBase : BitVec 64 := 0
  typetablePtr : BitVec 64 := 0
  calltablePtr : BitVec 64 := 0
  calltableSize : BitVec 64 := 0
  typetableEncoding : BitVec 8 := kDwarfPtrOmit
  calltableEncoding : BitVec 8 := kDwarfPtrOmit

structure CallsiteInfo where
  rangeStart : BitVec 64 := 0
  rangeLength : BitVec 64 := 0
  landingpad : BitVec 64 := 0
  actionId : BitVec 64 := 0
  deriving DecidableEq

/-- There is no next action for a null pointer. -/
structure ActionInfo where
  typeFilter : BitVec 64
  next : BitVec 64
  deriving DecidableEq

structure HandlerInfo where
  switchValue : BitVec 64
  actionRecord : BitVec 64
  adjustedPtr : BitVec 64

def parseLSDAHeader (m : Memory) (context : Context) : Option LsdaHeaderInfo :=
  if context.lsda = 0 then some {}
  else
    let points : RelativePoints :=
      { text := context.textRelBase, data := context.dataRelBase, func := context.regionStart }
    let read : Reader LsdaHeaderInfo := do
      let lpBaseEncoding ← readByte m
      let lsdaRelBase ←
        if lpBaseEncoding ≠ kDwarfPtrOmit then points.decode m lpBaseEncoding else pure context.regionStart
      let typetableEncoding ← readByte m
      let typetablePtr ←
        if typetableEncoding ≠ kDwarfPtrOmit then do
          let offset ← readULEB128 m
          pure ((← get) + offset)
        else pure 0
      let calltableEncoding ← readByte m
      let calltableSize ← readULEB128 m
      let calltablePtr ← get
      return ⟨context.textRelBase, context.dataRelBase, lsdaRelBase, typetablePtr, calltablePtr, calltableSize,
        typetableEncoding, calltableEncoding⟩
    (read context.lsda).map Prod.fst

def parseCallSiteInfo (m : Memory) (info : LsdaHeaderInfo) : Reader CallsiteInfo := do
  let points : RelativePoints := {}
  let regionStart := info.lsdaRelBase + (← points.decode m info.calltableEncoding)
  let regionLength ← points.decode m info.calltableEncoding
  let landingpad ← points.decode m info.calltableEncoding
  let landingpad := if landingpad ≠ 0 then landingpad + info.lsdaRelBase else landingpad
  let action ← readULEB128 m
  return ⟨regionStart, regionLength, landingpad, action⟩

def CallsiteInfo.covers (csinfo : CallsiteInfo) (pc : BitVec 64) : Bool :=
  csinfo.rangeStart ≤ pc && pc < csinfo.rangeStart + csinfo.rangeLength

/-- The fuel bounds the number of the entries. -/
def findCallSiteLoop (m : Memory) (info : LsdaHeaderInfo) (pc : BitVec 64) :
    Nat → BitVec 64 → Option CallsiteInfo
  | 0, _ => none
  | fuel + 1, ptr =>
    if ptr - info.calltablePtr < info.calltableSize then
      match parseCallSiteInfo m info ptr with
      | none => none
      | some (csinfo, ptr) =>
        if csinfo.covers pc then some csinfo
        else if pc < csinfo.rangeStart then some {}
        else findCallSiteLoop m info pc fuel ptr
    else some {}

def findCallSiteInfo (m : Memory) (info : LsdaHeaderInfo) (fuel : Nat) (pc : BitVec 64) : Option CallsiteInfo :=
  findCallSiteLoop m info pc fuel info.calltablePtr

def getActionTableEntry (info : LsdaHeaderInfo) (offset : BitVec 64) : BitVec 64 :=
  info.calltablePtr + info.calltableSize + offset

/-- The offset of the next action is relative to where it stands itself. -/
def parseActionTableEntry (m : Memory) (ptr : BitVec 64) : Option ActionInfo := do
  let (typeFilter, base) ← readSLEB128 m ptr
  let (offset, _) ← readSLEB128 m base
  return ⟨typeFilter, if offset ≠ 0 then base + offset else 0⟩

/-- The size of an entry of the type table. -/
def entrySize (encoding : BitVec 8) : Option (BitVec 64) :=
  match DwPtrType.ofByte (encoding &&& kDwarfPtrTypeMask) with
  | some .sdata2 | some .udata2 => some 2
  | some .sdata4 | some .udata4 => some 4
  | some .sdata8 | some .udata8 => some 8
  | _ => none

/-- An entry of the type table, which lies below the end of the table. -/
def decodeTypeEntry (m : Memory) (info : LsdaHeaderInfo) (size index : BitVec 64) : Option (BitVec 64) :=
  let points : RelativePoints := { text := info.textRelBase, data := info.dataRelBase, func := info.lsdaRelBase }
  (decodePreservingNull m points info.typetableEncoding (info.typetablePtr - size * index)).map Prod.fst

/-- Null where the size of the entries is not fixed. -/
def getCatchTypeInfo (m : Memory) (info : LsdaHeaderInfo) (index : BitVec 64) : Option (BitVec 64) :=
  match entrySize info.typetableEncoding with
  | none => some 0
  | some size => decodeTypeEntry m info size index

/-- What the personality routine asks about types: whether one is that of a pointer, and `__cxa_type_match` for the
exception in flight, with the pointer that is adjusted when the types match. -/
structure TypeInfos where
  isPointer : BitVec 64 → Bool
  typeMatch : Memory → BitVec 64 → BitVec 64 → Option (BitVec 64)

section FindMatchingAction

variable (m : Memory) (types : TypeInfos) (info : LsdaHeaderInfo) (exceptionObject : BitVec 64)

/-- The pointer that is matched: that of the object, or the object itself when it is a pointer. -/
def catchObject (catchType : BitVec 64) : BitVec 64 :=
  if types.isPointer catchType then m.word exceptionObject 8 else exceptionObject

/-- The test of one action. A thrown pointer is adjusted in its place. -/
def matchAction (actionPtr : BitVec 64) (action : ActionInfo) : Option (Option (HandlerInfo × Memory)) :=
  if action.typeFilter = 0 then some (some (⟨0, actionPtr, exceptionObject⟩, m))
  else if 0 < action.typeFilter.toInt then
    match getCatchTypeInfo m info action.typeFilter with
    | none => none
    | some catchType =>
      if catchType = 0 then some (some (⟨action.typeFilter, actionPtr, exceptionObject⟩, m))
      else
        match types.typeMatch m catchType (catchObject m types exceptionObject catchType) with
        | none => some none
        | some adjusted =>
          if types.isPointer catchType then
            some (some (⟨action.typeFilter, actionPtr, exceptionObject⟩, storeWord m exceptionObject adjusted))
          else some (some (⟨action.typeFilter, actionPtr, adjusted⟩, m))
  else some none

/-- The chain need not end; the fuel bounds the number of its actions. -/
def findMatchingActionLoop : Nat → BitVec 64 → Option (Option (HandlerInfo × Memory))
  | 0, _ => none
  | fuel + 1, actionPtr =>
    match parseActionTableEntry m actionPtr with
    | none => none
    | some action =>
      match matchAction m types info exceptionObject actionPtr action with
      | none => none
      | some (some found) => some (some found)
      | some none => if action.next = 0 then some none else findMatchingActionLoop fuel action.next

def findMatchingAction (fuel : Nat) (actionId : BitVec 64) : Option (Option (HandlerInfo × Memory)) :=
  findMatchingActionLoop m types info exceptionObject fuel (getActionTableEntry info actionId - 1)

end FindMatchingAction

/-- Termination is a reason of its own here. -/
inductive ReasonCode
  | continueUnwind | handlerFound | installContext | fatalPhase1Error | terminate
  deriving DecidableEq

/-- An exception in flight, with what is cached in the header of a native one. The type of a foreign one is that of
`__foreign_exception`. -/
structure Exception where
  header : BitVec 64
  native : Bool
  type : BitVec 64
  type_ne : type ≠ 0
  handlerSwitchValue : BitVec 32 := 0
  actionRecord : BitVec 64 := 0
  languageSpecificDataArea : BitVec 64 := 0
  catchTemp : BitVec 64 := 0
  adjustedPointer : BitVec 64 := 0

/-- The object is behind the header, which has 32 bytes. -/
def Exception.object (exception : Exception) : BitVec 64 := exception.header + 32

/-- The address of the call, which is before that of the return. -/
def Context.pc (context : Context) : BitVec 64 := if context.ipBefore then context.ip else context.ip - 1

section Phases

variable (m : Memory) (types : TypeInfos) (fuel : Nat) (exception : Exception) (context : Context)

def unwindPhase1 : Option (ReasonCode × Exception × Memory) := do
  if context.lsda = 0 then return (.continueUnwind, exception, m)
  let info ← parseLSDAHeader m context
  let site ← findCallSiteInfo m info fuel context.pc
  if site.rangeStart = 0 then return (.terminate, exception, m)
  if site.landingpad = 0 ∨ site.actionId = 0 then return (.continueUnwind, exception, m)
  if exception.type = 0 then return (.terminate, exception, m)
  match ← findMatchingAction m types info exception.object fuel site.actionId with
  | none => return (.continueUnwind, exception, m)
  | some (action, m') =>
    if action.switchValue = 0 then return (.continueUnwind, exception, m')
    if exception.native then
      let cached := { exception with
        handlerSwitchValue := action.switchValue.setWidth 32, actionRecord := action.actionRecord,
        languageSpecificDataArea := context.lsda, catchTemp := site.landingpad,
        adjustedPointer := action.adjustedPtr }
      return (.handlerFound, cached, m')
    return (.handlerFound, exception, m')

/-- The search for a cleanup action. -/
def findCleanup : Nat → BitVec 64 → Option Bool
  | 0, _ => none
  | fuel + 1, actionPtr =>
    match parseActionTableEntry m actionPtr with
    | none => none
    | some action =>
      if action.typeFilter = 0 then some true
      else if action.next = 0 then some false
      else findCleanup fuel action.next

def installContext (gr0 gr1 landingpad : BitVec 64) : ReasonCode × Context :=
  (.installContext, { context with gr0 := gr0, gr1 := gr1, ip := landingpad })

def unwindPhase2Cleanup : Option (ReasonCode × Context) := do
  if context.lsda = 0 then return (.continueUnwind, context)
  let info ← parseLSDAHeader m context
  let site ← findCallSiteInfo m info fuel context.pc
  if site.rangeStart = 0 then return (.terminate, context)
  if site.landingpad = 0 then return (.continueUnwind, context)
  if site.actionId ≠ 0 then
    if ← findCleanup m fuel (getActionTableEntry info (site.actionId - 1)) then
      return installContext context exception.header 0 site.landingpad
    return (.continueUnwind, context)
  return installContext context exception.header 0 site.landingpad

/-- For a foreign exception the work of the first phase is repeated. -/
def unwindPhase2Handler : Option (ReasonCode × Context × Memory) := do
  if exception.native then
    let (reason, context) := installContext context exception.adjustedPointer
      (exception.handlerSwitchValue.signExtend 64) exception.catchTemp
    return (reason, context, m)
  let info ← parseLSDAHeader m context
  let site ← findCallSiteInfo m info fuel context.pc
  let (action, m') ← (← findMatchingAction m types info exception.object fuel site.actionId)
  let (reason, context) := installContext context exception.header action.switchValue site.landingpad
  return (reason, context, m')

/-- What a call of the personality routine leaves. -/
structure PersonalityResult where
  reason : ReasonCode
  exception : Exception
  context : Context
  memory : Memory

/-- `_UA_SEARCH_PHASE`, `_UA_CLEANUP_PHASE`, `_UA_HANDLER_FRAME` and `_UA_FORCE_UNWIND`. -/
def uaSearchPhase : BitVec 32 := 1
def uaCleanupPhase : BitVec 32 := 2
def uaHandlerFrame : BitVec 32 := 4
def uaForceUnwind : BitVec 32 := 8

def gxxPersonalityV0 (version : BitVec 32) (action : BitVec 32) : Option PersonalityResult :=
  if version ≠ 1 then some ⟨.fatalPhase1Error, exception, context, m⟩
  else if action &&& uaSearchPhase ≠ 0 then
    (unwindPhase1 m types fuel exception context).map fun r => ⟨r.1, r.2.1, context, r.2.2⟩
  else if action &&& uaHandlerFrame ≠ 0 then
    (unwindPhase2Handler m types fuel exception context).map fun r => ⟨r.1, exception, r.2.1, r.2.2⟩
  else if action &&& (uaForceUnwind ||| uaCleanupPhase) ≠ 0 then
    (unwindPhase2Cleanup m fuel exception context).map fun r => ⟨r.1, exception, r.2, m⟩
  else some ⟨.fatalPhase1Error, exception, context, m⟩

end Phases

end XviOs.CxxAbi
