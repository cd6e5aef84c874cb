import Mathlib.Logic.Function.Basic
import XviOs.Library.StateProgram

namespace XviOs.SharedPtr

/-- The fields `_M_ptr`, an address, and `_M_owner`, the number of a control block. -/
structure Handle where
  ptr : Option ℕ
  owner : Option ℕ
  deriving DecidableEq

def Handle.null : Handle := ⟨none, none⟩

/-- The variables of type `shared_ptr` and `weak_ptr` while they live, where the shared one `none` is the temporary object
of an expression, and the control blocks. They are numbered as they are made, and their objects with them. There are
less pointers than a count can be. -/
structure Memory (ι ω : Type) where
  shared : Option ι → Option Handle
  weak : ω → Option Handle
  strongRef : ℕ → ℕ
  weakRef : ℕ → ℕ
  made : ℕ
  deleted : List ℕ
  freed : List ℕ

abbrev Program (ι ω β : Type) := StateT (Memory ι ω) Option β

variable {ι ω : Type} [DecidableEq ι] [DecidableEq ω]

namespace Memory

def setShared (m : Memory ι ω) (x : Option ι) (h : Option Handle) : Memory ι ω :=
  { m with shared := Function.update m.shared x h }

def setWeak (m : Memory ι ω) (w : ω) (h : Option Handle) : Memory ι ω :=
  { m with weak := Function.update m.weak w h }

/-- The control block has not been deleted. -/
def Alive (m : Memory ι ω) (k : ℕ) : Prop := k < m.made ∧ k ∉ m.freed

instance (m : Memory ι ω) (k : ℕ) : Decidable (m.Alive k) := inferInstanceAs (Decidable (_ ∧ _))

def make (m : Memory ι ω) : Memory ι ω :=
  { m with
    strongRef := Function.update m.strongRef m.made 1
    weakRef := Function.update m.weakRef m.made 1
    made := m.made + 1 }

def incrementStrong (m : Memory ι ω) (k : ℕ) : Memory ι ω :=
  { m with strongRef := Function.update m.strongRef k (m.strongRef k + 1) }

def incrementWeak (m : Memory ι ω) (k : ℕ) : Memory ι ω :=
  { m with weakRef := Function.update m.weakRef k (m.weakRef k + 1) }

/-- `__sub_weak_ref`: the control block is deleted when the count was 1. -/
def decrementWeak (m : Memory ι ω) (k : ℕ) : Memory ι ω :=
  { m with
    weakRef := Function.update m.weakRef k (m.weakRef k - 1)
    freed := if m.weakRef k = 1 then k :: m.freed else m.freed }

/-- `__sub_strong_ref`: the object is deleted when the count was 1. -/
def decrementStrong (m : Memory ι ω) (k : ℕ) : Memory ι ω :=
  let less : Memory ι ω := { m with strongRef := Function.update m.strongRef k (m.strongRef k - 1) }
  if m.strongRef k = 1 then Memory.decrementWeak { less with deleted := k :: m.deleted } k else less

end Memory

def loadShared (x : Option ι) : Program ι ω Handle := fun m => (m.shared x).map fun h => (h, m)

def loadWeak (w : ω) : Program ι ω Handle := fun m => (m.weak w).map fun h => (h, m)

def storeShared (x : Option ι) (h : Handle) : Program ι ω Unit := fun m =>
  if (m.shared x).isSome then some ((), m.setShared x (some h)) else none

def storeWeak (w : ω) (h : Handle) : Program ι ω Unit := fun m =>
  if (m.weak w).isSome then some ((), m.setWeak w (some h)) else none

/-- The life of a variable begins. -/
def createShared (x : Option ι) (h : Handle) : Program ι ω Unit := fun m =>
  if (m.shared x).isNone then some ((), m.setShared x (some h)) else none

def createWeak (w : ω) (h : Handle) : Program ι ω Unit := fun m =>
  if (m.weak w).isNone then some ((), m.setWeak w (some h)) else none

/-- The life of a variable ends. -/
def removeShared (x : Option ι) : Program ι ω Unit := fun m =>
  if (m.shared x).isSome then some ((), m.setShared x none) else none

def removeWeak (w : ω) : Program ι ω Unit := fun m =>
  if (m.weak w).isSome then some ((), m.setWeak w none) else none

/-- A new control block for a new object. -/
def newOwner : Program ι ω ℕ := fun m => some (m.made, m.make)

def addStrongRef (k : ℕ) : Program ι ω Unit := fun m => if m.Alive k then some ((), m.incrementStrong k) else none

def subStrongRef (k : ℕ) : Program ι ω Unit := fun m => if m.Alive k then some ((), m.decrementStrong k) else none

def addWeakRef (k : ℕ) : Program ι ω Unit := fun m => if m.Alive k then some ((), m.incrementWeak k) else none

def subWeakRef (k : ℕ) : Program ι ω Unit := fun m => if m.Alive k then some ((), m.decrementWeak k) else none

def tryAddStrongRef (k : ℕ) : Program ι ω Bool := fun m =>
  if m.Alive k then
    if m.strongRef k = 0 then some (false, m) else some (true, m.incrementStrong k)
  else none

/-- `if (owner) f(owner);` -/
def whenSome (owner : Option ℕ) (f : ℕ → Program ι ω Unit) : Program ι ω Unit :=
  match owner with
  | none => return
  | some k => f k

/-- A call through a pointer that must not be null. -/
def through (owner : Option ℕ) (f : ℕ → Program ι ω Unit) : Program ι ω Unit :=
  match owner with
  | none => failure
  | some k => f k

/-- The assignments to the fields of a variable. -/
def storePtr (x : Option ι) (p : Option ℕ) : Program ι ω Unit := do
  let h ← loadShared x
  storeShared x { h with ptr := p }

def storeOwner (x : Option ι) (k : Option ℕ) : Program ι ω Unit := do
  let h ← loadShared x
  storeShared x { h with owner := k }

def storeWeakPtr (w : ω) (p : Option ℕ) : Program ι ω Unit := do
  let h ← loadWeak w
  storeWeak w { h with ptr := p }

def storeWeakOwner (w : ω) (k : Option ℕ) : Program ι ω Unit := do
  let h ← loadWeak w
  storeWeak w { h with owner := k }

/-- The constructor from the address of a new object. -/
def constructNew (x : Option ι) : Program ι ω Unit := do
  let k ← newOwner
  createShared x ⟨some k, some k⟩

/-- The constructors that copy, with an address that is given. Also the one that would move is called with this: its
second type cannot be deduced. -/
def aliasConstruct (x y : Option ι) (p : Option ℕ) : Program ι ω Unit := do
  let h ← loadShared y
  createShared x ⟨p, h.owner⟩
  whenSome h.owner addStrongRef

def copyConstruct (x y : Option ι) : Program ι ω Unit := do aliasConstruct x y (← loadShared y).ptr

def moveConstruct (x y : Option ι) : Program ι ω Unit := do
  createShared x (← loadShared y)
  storePtr y none
  storeOwner y none

/-- When the constructor throws there is no object. -/
def constructFromWeak (x : Option ι) (w : ω) : Program ι ω Unit := do
  let h ← loadWeak w
  createShared x h
  match h.owner with
  | none => return
  | some k => if ← tryAddStrongRef k then return else removeShared x

def destroy (x : Option ι) : Program ι ω Unit := do
  whenSome (← loadShared x).owner subStrongRef
  removeShared x

def copyAssign (x y : Option ι) : Program ι ω Unit := do
  storePtr x (← loadShared y).ptr
  let owner := (← loadShared x).owner
  let other := (← loadShared y).owner
  if owner ≠ none ∧ owner ≠ other then do
    whenSome owner subStrongRef
    storeOwner x (← loadShared y).owner
    through (← loadShared x).owner addStrongRef
  else return

def moveAssign (x y : Option ι) : Program ι ω Unit := do
  storePtr x (← loadShared y).ptr
  storePtr y none
  whenSome (← loadShared x).owner subStrongRef
  storeOwner x (← loadShared y).owner
  storeOwner y none

def swap (x y : Option ι) : Program ι ω Unit := do
  let h ← loadShared y
  storeShared y (← loadShared x)
  storeShared x h

def reset (x : Option ι) : Program ι ω Unit := do
  storePtr x none
  whenSome (← loadShared x).owner subStrongRef
  storeOwner x none

/-- `reset` with the address of a new object. -/
def resetNew (x : Option ι) : Program ι ω Unit := do
  constructNew none
  swap none x
  destroy none

/-- The casts, with the address that the cast gives. -/
def pointerCast (x y : Option ι) (p : Option ℕ) : Program ι ω Unit := aliasConstruct x y p

def dynamicPointerCast (x y : Option ι) (p : Option ℕ) : Program ι ω Unit :=
  if p.isSome then aliasConstruct x y p else createShared x Handle.null

def weakFromShared (w : ω) (x : Option ι) : Program ι ω Unit := do
  let h ← loadShared x
  createWeak w h
  whenSome h.owner addWeakRef

def weakCopyConstruct (w v : ω) : Program ι ω Unit := do
  let h ← loadWeak v
  createWeak w h
  whenSome h.owner addWeakRef

def weakMoveConstruct (w v : ω) : Program ι ω Unit := do
  createWeak w (← loadWeak v)
  storeWeakPtr v none
  storeWeakOwner v none

def weakReset (w : ω) : Program ι ω Unit := do
  whenSome (← loadWeak w).owner subWeakRef
  storeWeakOwner w none
  storeWeakPtr w none

def weakDestroy (w : ω) : Program ι ω Unit := do
  weakReset w
  removeWeak w

/-- The assignment to a `weak_ptr` from the fields of another pointer. -/
def weakAssign (w : ω) (h : Handle) : Program ι ω Unit := do
  let owner := (← loadWeak w).owner
  if h.owner ≠ owner then do
    whenSome owner subWeakRef
    storeWeakOwner w h.owner
    whenSome h.owner addWeakRef
    storeWeakPtr w h.ptr
  else storeWeakPtr w h.ptr

def weakCopyAssign (w v : ω) : Program ι ω Unit := do weakAssign w (← loadWeak v)

def weakAssignShared (w : ω) (x : Option ι) : Program ι ω Unit := do weakAssign w (← loadShared x)

def weakMoveAssign (w v : ω) : Program ι ω Unit :=
  if v = w then return
  else do
    whenSome (← loadWeak w).owner subWeakRef
    storeWeakOwner w (← loadWeak v).owner
    storeWeakPtr w (← loadWeak v).ptr
    storeWeakPtr v none
    storeWeakOwner v none

def weakSwap (w v : ω) : Program ι ω Unit := do
  let h ← loadWeak w
  storeWeak w (← loadWeak v)
  storeWeak v h

def lock (x : Option ι) (w : ω) : Program ι ω Unit := do
  createShared x Handle.null
  let h ← loadWeak w
  match h.owner with
  | none => return
  | some k => do
    if ← tryAddStrongRef k then storeShared x h else return

end XviOs.SharedPtr
