import Mathlib.Logic.Function.Basic
import XviOs.Library.StateProgram

namespace XviOs.RefcountedPtr

/-- The variables of type `refcounted_ptr`, each with its `m_ptr` while it lives, where the variable `none` is the
temporary object of an expression. The objects are numbered as they are made. -/
structure Memory (ι : Type) where
  ptr : Option ι → Option (Option ℕ)
  refcount : ℕ → ℕ
  made : ℕ
  deleted : List ℕ

abbrev Program (ι β : Type) := StateT (Memory ι) Option β

variable {ι : Type} [DecidableEq ι]

namespace Memory

def setPtr (m : Memory ι) (x : Option ι) (p : Option (Option ℕ)) : Memory ι :=
  { m with ptr := Function.update m.ptr x p }

def Alive (m : Memory ι) (o : ℕ) : Prop := o < m.made ∧ o ∉ m.deleted

instance (m : Memory ι) (o : ℕ) : Decidable (m.Alive o) := inferInstanceAs (Decidable (_ ∧ _))

def make (m : Memory ι) : Memory ι :=
  { m with refcount := Function.update m.refcount m.made 1, made := m.made + 1 }

def increment (m : Memory ι) (o : ℕ) : Memory ι :=
  { m with refcount := Function.update m.refcount o (m.refcount o + 1) }

/-- The object is deleted when the count was 1. -/
def decrement (m : Memory ι) (o : ℕ) : Memory ι :=
  { m with
    refcount := Function.update m.refcount o (m.refcount o - 1)
    deleted := if m.refcount o = 1 then o :: m.deleted else m.deleted }

end Memory

def load (x : Option ι) : Program ι (Option ℕ) := fun m => (m.ptr x).map fun p => (p, m)

def store (x : Option ι) (p : Option ℕ) : Program ι Unit := fun m =>
  if (m.ptr x).isSome then some ((), m.setPtr x (some p)) else none

/-- The life of a variable begins. -/
def create (x : Option ι) (p : Option ℕ) : Program ι Unit := fun m =>
  if (m.ptr x).isNone then some ((), m.setPtr x (some p)) else none

/-- The life of a variable ends. -/
def remove (x : Option ι) : Program ι Unit := fun m =>
  if (m.ptr x).isSome then some ((), m.setPtr x none) else none

def newObject : Program ι ℕ := fun m => some (m.made, m.make)

def addRef (o : ℕ) : Program ι Unit := fun m => if m.Alive o then some ((), m.increment o) else none

def releaseRef (o : ℕ) : Program ι Unit := fun m => if m.Alive o then some ((), m.decrement o) else none

/-- `if (p) f(p);` -/
def whenSome (p : Option ℕ) (f : ℕ → Program ι Unit) : Program ι Unit :=
  match p with
  | none => return
  | some o => f o

/-- The constructor from an address, which takes over a reference. -/
def constructPointer (x : Option ι) (p : Option ℕ) : Program ι Unit := create x p

def copyConstruct (x y : Option ι) : Program ι Unit := do
  let p ← load y
  create x p
  whenSome p addRef

def moveConstruct (x y : Option ι) : Program ι Unit := do
  create x (← load y)
  store y none

/-- The constructors from pointers of another type are the same. -/
def convertCopyConstruct (x y : Option ι) : Program ι Unit := copyConstruct x y

def convertMoveConstruct (x y : Option ι) : Program ι Unit := moveConstruct x y

def reset (x : Option ι) : Program ι Unit := do
  whenSome (← load x) releaseRef
  store x none

/-- `reset` with an address, whose reference is taken over. -/
def resetPointer (x : Option ι) (p : Option ℕ) : Program ι Unit := do
  reset x
  store x p

def destroy (x : Option ι) : Program ι Unit := do
  reset x
  remove x

def copyAssign (x y : Option ι) : Program ι Unit := do
  whenSome (← load y) addRef
  whenSome (← load x) releaseRef
  store x (← load y)

def moveAssign (x y : Option ι) : Program ι Unit := do
  let tmp ← load y
  store y none
  store x tmp

def convertCopyAssign (x y : Option ι) : Program ι Unit := do
  convertCopyConstruct none y
  moveAssign x none
  destroy none

def convertMoveAssign (x y : Option ι) : Program ι Unit := do
  convertMoveConstruct none y
  moveAssign x none
  destroy none

/-- The assignment of an address makes a temporary object from it. -/
def assignPointer (x : Option ι) (p : Option ℕ) : Program ι Unit := do
  constructPointer none p
  moveAssign x none
  destroy none

def swap (x y : Option ι) : Program ι Unit := do
  let p ← load x
  store x (← load y)
  store y p

def take (x : Option ι) : Program ι (Option ℕ) := do
  let tmp ← load x
  store x none
  return tmp

/-- A cast that gives the same object. -/
def pointerCast (x y : Option ι) : Program ι Unit := do
  create x none
  assignPointer x (← load y)

def pointerCastMove (x y : Option ι) : Program ι Unit := do constructPointer x (← take y)

def staticPointerCast (x y : Option ι) : Program ι Unit := pointerCast x y

def staticPointerCastMove (x y : Option ι) : Program ι Unit := pointerCastMove x y

def constPointerCast (x y : Option ι) : Program ι Unit := pointerCast x y

def constPointerCastMove (x y : Option ι) : Program ι Unit := pointerCastMove x y

def reinterpretPointerCast (x y : Option ι) : Program ι Unit := pointerCast x y

def reinterpretPointerCastMove (x y : Option ι) : Program ι Unit := pointerCastMove x y

/-- `dynamic_cast`, when it is known whether the object is of the type. -/
def dynamicCast (succeeds : Bool) (p : Option ℕ) : Option ℕ := if succeeds then p else none

def dynamicPointerCast (x y : Option ι) (succeeds : Bool) : Program ι Unit := do
  create x none
  let pp := dynamicCast succeeds (← load y)
  if pp.isSome then assignPointer x pp else return

def dynamicPointerCastMove (x y : Option ι) (succeeds : Bool) : Program ι Unit := do
  let pp := dynamicCast succeeds (← load y)
  if pp.isSome then do
    constructPointer x pp
    let _ ← take y
  else create x none

end XviOs.RefcountedPtr
