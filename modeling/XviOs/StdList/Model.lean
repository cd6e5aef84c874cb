import Mathlib.Data.Finset.Card
import XviOs.Library.Links
import XviOs.Library.StateProgram

namespace XviOs.StdList

/-- The fields `_M_list`, `_M_last` and `_M_count` of each list, and the elements that are allocated. The address 0 is
`nullptr`. -/
structure Memory (ι α : Type) where
  list : ι → ℕ
  last : ι → ℕ
  count : ι → ℕ
  next : ℕ → ℕ
  prev : ℕ → ℕ
  data : ℕ → α
  live : Finset ℕ

/-- What the allocator does with the elements in use. -/
structure Allocator where
  allocate : Finset ℕ → ℕ
  allocate_notMem : ∀ live, allocate live ∉ live
  allocate_ne_null : ∀ live, allocate live ≠ 0

/-- A `const_iterator`. One that is made from an iterator has no parent. -/
structure ConstIterator (ι : Type) where
  parent : Option ι
  element : ℕ
  deriving DecidableEq

abbrev Program (ι α β : Type) := StateT (Memory ι α) Option β

variable {ι α : Type} [DecidableEq ι] (A : Allocator)

def getList (l : ι) : Program ι α ℕ := fun m => some (m.list l, m)

def getLast (l : ι) : Program ι α ℕ := fun m => some (m.last l, m)

def getCount (l : ι) : Program ι α ℕ := fun m => some (m.count l, m)

def setList (l : ι) (p : ℕ) : Program ι α Unit := fun m => some ((), { m with list := Function.update m.list l p })

def setLast (l : ι) (p : ℕ) : Program ι α Unit := fun m => some ((), { m with last := Function.update m.last l p })

/-- There are less elements than addresses, so that the count does not wrap around. -/
def setCount (l : ι) (n : ℕ) : Program ι α Unit := fun m => some ((), { m with count := Function.update m.count l n })

def readNext (p : ℕ) : Program ι α ℕ := fun m => if p ∈ m.live then some (m.next p, m) else none

def readPrev (p : ℕ) : Program ι α ℕ := fun m => if p ∈ m.live then some (m.prev p, m) else none

def readData (p : ℕ) : Program ι α α := fun m => if p ∈ m.live then some (m.data p, m) else none

def writeNext (p v : ℕ) : Program ι α Unit := fun m =>
  if p ∈ m.live then some ((), { m with next := Function.update m.next p v }) else none

def writePrev (p v : ℕ) : Program ι α Unit := fun m =>
  if p ∈ m.live then some ((), { m with prev := Function.update m.prev p v }) else none

def writeData (p : ℕ) (x : α) : Program ι α Unit := fun m =>
  if p ∈ m.live then some ((), { m with data := Function.update m.data p x }) else none

/-- The number of steps after which a walk is in a circle. -/
def bound : Program ι α ℕ := fun m => some (m.live.card + 1, m)

def newElement (x : α) : Program ι α ℕ := fun m =>
  let p := A.allocate m.live
  some (p, { m with
    next := Function.update m.next p 0
    prev := Function.update m.prev p 0
    data := Function.update m.data p x
    live := insert p m.live })

def deleteElement (p : ℕ) : Program ι α Unit := fun m =>
  if p ∈ m.live then some ((), { m with live := m.live.erase p }) else none

/-- `if (p) p->__next = v; else _M_list = v;` -/
def linkNext (l : ι) (p v : ℕ) : Program ι α Unit := if p = 0 then setList l v else writeNext p v

/-- `if (p) p->__prev = v; else _M_last = v;` -/
def linkPrev (l : ι) (p v : ℕ) : Program ι α Unit := if p = 0 then setLast l v else writePrev p v

def insertAfter (l : ι) (pos new : ℕ) : Program ι α ℕ := do
  -- `__pos->__next` is read before `__pos` is tested
  writeNext new (← readNext pos)
  writePrev new pos
  linkNext l pos new
  linkPrev l (← readNext new) new
  setCount l ((← getCount l) + 1)
  return new

/-- `(pos) ? pos->__prev : _M_last` -/
def before (l : ι) (pos : ℕ) : Program ι α ℕ := if pos = 0 then getLast l else readPrev pos

def insertBefore (l : ι) (pos new : ℕ) : Program ι α ℕ := do insertAfter l (← before l pos) new

def remove (l : ι) (which : ℕ) : Program ι α ℕ := do
  linkNext l (← readPrev which) (← readNext which)
  let next ← readNext which
  linkPrev l (← readNext which) (← readPrev which)
  writeNext which 0
  writePrev which 0
  setCount l ((← getCount l) - 1)
  return next

def removeAndDeleteElement (l : ι) (which : ℕ) : Program ι α Unit := do
  let _ ← remove l which
  deleteElement which

def insertNewElementAfter (l : ι) (pos : ℕ) (x : α) : Program ι α ℕ := do insertAfter l pos (← newElement A x)

def insertNewElementBefore (l : ι) (pos : ℕ) (x : α) : Program ι α ℕ := do insertBefore l pos (← newElement A x)

def emplaceFront (l : ι) (x : α) : Program ι α Unit := do
  let _ ← insertNewElementAfter A l 0 x

def emplaceBack (l : ι) (x : α) : Program ι α Unit := do
  let _ ← insertNewElementAfter A l (← getLast l) x

def popFront (l : ι) : Program ι α Unit := do
  let e ← getList l
  if e ≠ 0 then
    removeAndDeleteElement l e

def popBack (l : ι) : Program ι α Unit := do
  let e ← getLast l
  if e ≠ 0 then
    removeAndDeleteElement l e

def emplace (l : ι) (position : ℕ) (x : α) : Program ι α ℕ := insertNewElementBefore A l position x

/-- `insert` for `n` copies. -/
def insertCopies (l : ι) (x : α) : ℕ → ℕ → Program ι α ℕ
  | 0, position => return position
  | n + 1, position => do insertCopies l x n (← emplace A l position x)

def insertLoop (l : ι) (position : ℕ) : List α → Program ι α Unit
  | [] => return
  | x :: xs => do
    let _ ← emplace A l position x
    insertLoop l position xs

/-- `(pos) ? pos->__prev : nullptr` -/
def prevOrNull (pos : ℕ) : Program ι α ℕ := if pos = 0 then return 0 else readPrev pos

/-- `insert` for a range. -/
def insertRange (l : ι) (position : ℕ) (xs : List α) : Program ι α ℕ := do
  let prev ← prevOrNull position
  insertLoop A l position xs
  if prev = 0 then getList l else return prev

def erase (l : ι) (position : ℕ) : Program ι α ℕ := do
  if position = (← getLast l) then
    removeAndDeleteElement l position
    return 0
  else
    let next ← readNext position
    removeAndDeleteElement l position
    return next

def eraseLoop (l : ι) (last : ConstIterator ι) : ℕ → ConstIterator ι → Program ι α Unit
  | 0, _ => failure
  | n + 1, first => do
    if first ≠ last then
      -- the assignment from an iterator leaves the parent
      eraseLoop l last n ⟨first.parent, ← erase l first.element⟩

/-- `erase` for a range. -/
def eraseRange (l : ι) (first last : ConstIterator ι) : Program ι α Unit := do eraseLoop l last (← bound) first

def clear (l : ι) : Program ι α Unit := do eraseRange l ⟨none, ← getList l⟩ ⟨none, 0⟩

def advance : ℕ → ℕ → Program ι α ℕ
  | 0, p => return p
  | n + 1, p => do advance n (← readNext p)

/-- What both forms of `resize` do when the size is not greater. -/
def shrink (l : ι) (sz : ℕ) : Program ι α Unit := do
  let i ← advance ((← getCount l) - sz) (← getList l)
  eraseRange l ⟨none, i⟩ ⟨none, 0⟩

def emplaceBacks (l : ι) (x : α) : ℕ → Program ι α Unit
  | 0 => return
  | n + 1 => do
    emplaceBack A l x
    emplaceBacks l x n

/-- `resize` with the value of a new element. -/
def resize (l : ι) (sz : ℕ) (x : α) : Program ι α Unit := do
  if sz > (← getCount l) then
    emplaceBacks A l x (sz - (← getCount l))
  else
    shrink l sz

/-- `resize` with copies. -/
def resizeCopies (l : ι) (sz : ℕ) (x : α) : Program ι α Unit := do
  if sz > (← getCount l) then
    let _ ← insertCopies A l x (sz - (← getCount l)) 0
  else
    shrink l sz

def assignLoop : List α → ℕ → Program ι α (ℕ × List α)
  | [], i => return (i, [])
  | x :: xs, i => do
    if i = 0 then
      return (0, x :: xs)
    writeData i x
    assignLoop xs (← readNext i)

/-- `assign` for a range. -/
def assignRange (l : ι) (xs : List α) : Program ι α Unit := do
  let (i, rest) ← assignLoop xs (← getList l)
  if i ≠ 0 then
    eraseRange l ⟨none, i⟩ ⟨none, 0⟩
  else
    let _ ← insertRange A l i rest

/-- `assign` for `n` copies. -/
def assignCopies (l : ι) (n : ℕ) (x : α) : Program ι α Unit := do
  let (i, rest) ← assignLoop (List.replicate n x) (← getList l)
  if i ≠ 0 then
    eraseRange l ⟨none, i⟩ ⟨none, 0⟩
  else
    let _ ← insertCopies A l x rest.length i

/-- `std::prev`. From the end it goes through the parent. -/
def prevOf (i : ConstIterator ι) : Program ι α ℕ :=
  if i.element ≠ 0 then readPrev i.element else
    match i.parent with
    | none => failure
    | some l => getLast l

/-- How a range is linked in before a position. -/
def linkRange (l : ι) (pos f last : ℕ) (prev : ℕ) : Program ι α Unit := do
  writePrev f prev
  writeNext last pos
  linkPrev l pos last
  linkNext l prev f

def spliceLoop (l : ι) (position : ℕ) (x : ι) (first last : ConstIterator ι) : ℕ → Program ι α Unit
  | 0 => failure
  | n + 1 => do
    if first ≠ last then
      let _ ← remove x first.element
      let _ ← insertBefore l position first.element
      -- `__first` is what it was
      spliceLoop l position x first last n

/-- `splice` for a range. -/
def spliceRange (l : ι) (pos : ℕ) (x : ι) (first last : ConstIterator ι) : Program ι α Unit := do
  if x = l then
    let e ← prevOf last
    let prev ← before l pos
    linkRange l pos first.element e prev
  -- the iterators of `begin()` and `end()` are converted for the comparison
  else if first = ⟨none, ← getList x⟩ ∧ last = ⟨none, 0⟩ then
    if first ≠ last then
      let e ← prevOf last
      let prev ← before l pos
      linkRange l pos first.element e prev
      setCount l ((← getCount l) + (← getCount x))
      setList x 0
      setLast x 0
      setCount x 0
  else
    spliceLoop l pos x first last (← bound)

/-- `splice` for a whole list. -/
def spliceAll (l : ι) (position : ℕ) (x : ι) : Program ι α Unit := do
  spliceRange l position x ⟨none, ← getList x⟩ ⟨none, 0⟩

/-- `splice` for a single element. -/
def spliceOne (l : ι) (position : ℕ) (x : ι) (i : ConstIterator ι) : Program ι α Unit := do
  if i ≠ ⟨none, 0⟩ then
    spliceRange l position x i ⟨i.parent, ← readNext i.element⟩

def removeLoop (l : ι) (pred : α → Bool) : ℕ → ℕ → ℕ → Program ι α ℕ
  | 0, _, _ => failure
  | fuel + 1, i, n => do
    if i = 0 then
      return n
    if pred (← readData i) then
      removeLoop l pred fuel (← erase l i) (n + 1)
    else
      removeLoop l pred fuel (← readNext i) n

def removeIf (l : ι) (pred : α → Bool) : Program ι α ℕ := do removeLoop l pred (← bound) (← getList l) 0

def uniqueLoop (l : ι) (pred : α → α → Bool) : ℕ → ℕ → ℕ → ℕ → Program ι α ℕ
  | 0, _, _, _ => failure
  | fuel + 1, prev, i, n => do
    if i = 0 then
      return n
    if pred (← readData prev) (← readData i) then
      uniqueLoop l pred fuel prev (← erase l i) (n + 1)
    else
      uniqueLoop l pred fuel i (← readNext i) n

def unique (l : ι) (pred : α → α → Bool) : Program ι α ℕ := do
  let prev ← getList l
  if prev = 0 then
    return 0
  uniqueLoop l pred (← bound) prev (← readNext prev) 0

def reverseLoop (temp l : ι) : ℕ → Program ι α Unit
  | 0 => failure
  | n + 1 => do
    if (← getList l) ≠ 0 then
      spliceOne temp (← getList temp) l ⟨none, ← getList l⟩
      reverseLoop temp l n

/-- With the list `__tmp` of its own. -/
def reverse (temp l : ι) : Program ι α Unit := do
  setList temp 0
  setLast temp 0
  setCount temp 0
  reverseLoop temp l (← bound)
  spliceAll l (← getList l) temp

end XviOs.StdList
