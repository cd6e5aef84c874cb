import Mathlib.Data.BitVec
import Mathlib.Tactic

namespace XviOs.RBTree

abbrev Word := BitVec 64

/-- A node of the tree: three words with pointers and flags, and its key. -/
structure Node (K : Type) where
  left : Word
  right : Word
  parent : Word
  key : K

/-- The nodes that exist, by their addresses. -/
abbrev Memory (K : Type) := Word → Option (Node K)

/-- A computation on the nodes; `none` when it follows a pointer to no node, or runs
out of steps. -/
abbrev M (K α : Type) := StateT (Memory K) Option α

inductive Where
  | left
  | here
  | right
  deriving DecidableEq

def flagsMask : Word := 0b11

def ptrMask : Word := ~~~flagsMask

def flagRed : Word := 0b01

variable {K : Type}

def load (n : Word) : M K (Node K) := fun mem => (mem n).map fun x => (x, mem)

def store (n : Word) (f : Node K → Node K) : M K Unit :=
  fun mem => (mem n).map fun x => ((), Function.update mem n (some (f x)))

@[simp] theorem run_load (n : Word) (mem : Memory K) : (load n).run mem = (mem n).map fun x => (x, mem) := rfl

@[simp] theorem run_store (n : Word) (f : Node K → Node K) (mem : Memory K) :
    (store n f).run mem = (mem n).map fun x => ((), Function.update mem n (some (f x))) := rfl

def diverge {α : Type} : M K α := fun _ => none

def left (n : Word) : M K Word := return (← load n).left

def right (n : Word) : M K Word := return (← load n).right

def key (n : Word) : M K K := return (← load n).key

@[simp] theorem run_key (n : Word) (mem : Memory K) : (key n).run mem = (mem n).map fun x => (x.key, mem) := by
  cases h : mem n <;> simp [key, h]

def Node.up (x : Node K) : Word := x.parent &&& ptrMask

def Node.isRed (x : Node K) : Bool := x.parent &&& flagRed ≠ 0

def parent (n : Word) : M K Word := return (← load n).up

def setParent (n p : Word) : M K Unit :=
  store n fun x => { x with parent := p ||| (x.parent &&& flagsMask) }

def setLeft (n l : Word) : M K Unit := do
  store n fun x => { x with left := l }
  if l ≠ 0 then setParent l n

def setRight (n r : Word) : M K Unit := do
  store n fun x => { x with right := r }
  if r ≠ 0 then setParent r n

def isRed (n : Word) : M K Bool := return (← load n).isRed

def isBlack (n : Word) : M K Bool := return !(← isRed n)

/-- The flag goes into the word of the left child, while `isRed` reads the parent's. -/
def setRed (n : Word) : M K Unit := store n fun x => { x with left := x.left ||| flagRed }

def setBlack (n : Word) : M K Unit := store n fun x => { x with left := x.left &&& ~~~flagRed }

def setColour (n : Word) (red : Bool) : M K Unit := if red then setRed n else setBlack n

def isLeftChild (n : Word) : M K Bool := do
  let p ← parent n
  if p = 0 then return false
  return (← left p) = n

def isRightChild (n : Word) : M K Bool := do
  let p ← parent n
  if p = 0 then return false
  return (← right p) = n

section Static

def parentOf (n : Word) : M K Word := if n = 0 then return 0 else parent n

def grandparent (n : Word) : M K Word := do parentOf (← parentOf n)

def sibling (n : Word) : M K Word := do
  let p ← parentOf n
  if p = 0 then return 0
  if (← left p) = n then right p else left p

def uncle (n : Word) : M K Word := do
  let p ← parentOf n
  if p = 0 then return 0
  sibling p

def isBlackAt (n : Word) : M K Bool := if n = 0 then return true else isBlack n

def isRedAt (n : Word) : M K Bool := return !(← isBlackAt n)

/-- Follows left children down to the last. -/
def min : Nat → Word → M K Word
  | 0, _ => diverge
  | fuel + 1, n => do
    let l ← left n
    if l ≠ 0 then min fuel l else return n

def max : Nat → Word → M K Word
  | 0, _ => diverge
  | fuel + 1, n => do
    let r ← right n
    if r ≠ 0 then max fuel r else return n

/-- `while (n->is_right_child()) n = n->parent()` -/
def climbRight : Nat → Word → M K Word
  | 0, _ => diverge
  | fuel + 1, n => do
    if ← isRightChild n then climbRight fuel (← parent n) else return n

def climbLeft : Nat → Word → M K Word
  | 0, _ => diverge
  | fuel + 1, n => do
    if ← isLeftChild n then climbLeft fuel (← parent n) else return n

def next (fuel : Nat) (n : Word) : M K Word := do
  let r ← right n
  if r ≠ 0 then min fuel r
  else if ← isLeftChild n then parent n
  else if ← isRightChild n then parent (← climbRight fuel n)
  else return 0

def prev (fuel : Nat) (n : Word) : M K Word := do
  let l ← left n
  if l ≠ 0 then max fuel l
  else if ← isRightChild n then parent n
  else if ← isLeftChild n then parent (← climbLeft fuel n)
  else return 0

variable (pred : K → K → Bool)

/-- The call for the subtree of a child passes the root on, not the child. -/
def findInsertPoint : Nat → Word → K → M K (Word × Where)
  | 0, _, _ => diverge
  | fuel + 1, root, k => do
    if root = 0 then return (0, .here)
    if pred k (← key root) then
      if (← left root) ≠ 0 then findInsertPoint fuel root k else return (root, .left)
    else if pred (← key root) k then
      if (← right root) ≠ 0 then findInsertPoint fuel root k else return (root, .right)
    else return (root, .here)

/-- The loop of `upperBound`: down the right subtree to the first greater key. -/
def upperBoundLoop : Nat → Word → Word → K → M K Word
  | 0, _, _, _ => diverge
  | fuel + 1, root, r, k => do
    if r = 0 then return root
    if pred k (← key r) then upperBoundLoop fuel root (← left r) k
    else upperBoundLoop fuel r (← right r) k

def upperBound (fuel : Nat) (root : Word) (k : K) : M K Word := do
  if root = 0 then return 0
  match ← findInsertPoint pred fuel root k with
  | (n, .left) => return n
  | (n, .right) => next fuel n
  | (n, .here) => next fuel (← upperBoundLoop pred fuel n (← right n) k)

end Static

section Rotations

def rotateRight (n : Word) : M K Word := do
  let x ← right n
  setParent x (← parent n)
  setRight n (← left x)
  setLeft x n
  setColour x (← isRed n)
  setRed n
  return x

def rotateLeft (n : Word) : M K Word := do
  let x ← left n
  setParent x (← parent n)
  setLeft n (← right x)
  setRight x n
  setColour x (← isRed n)
  setRed n
  return x

def exchangeNodes (old new : Word) : M K Unit := do
  let oldWasLeft ← isLeftChild old
  let newWasLeft ← isLeftChild new
  let x ← load old
  let y ← load new
  store old fun z => { z with left := y.left, right := y.right, parent := y.parent }
  store new fun z => { z with left := x.left, right := x.right, parent := x.parent }
  if oldWasLeft then setLeft (← parent new) new else setRight (← parent new) new
  if newWasLeft then setLeft (← parent old) old else setRight (← parent old) old

end Rotations

section Insert

variable (pred : K → K → Bool)

def insertUnbalanced : Nat → Word → Word → K → M K Unit
  | 0, _, _, _ => diverge
  | fuel + 1, root, new, k => do
    let l ← left root
    let r ← right root
    if root ≠ 0 then
      if pred k (← key root) then
        if l ≠ 0 then return ← insertUnbalanced fuel l new k
        setLeft root new
      else
        if r ≠ 0 then return ← insertUnbalanced fuel r new k
        setRight root new
    setParent new root
    setRight new 0
    setLeft new 0
    setRed new

def insertBalance : Nat → Word → M K Unit
  | 0, _ => diverge
  | fuel + 1, n => do
    if (← parentOf n) = 0 then setBlack n
    else if ← isBlackAt (← parentOf n) then return
    else if ← isRedAt (← uncle n) then
      setBlack (← parentOf n)
      setBlack (← uncle n)
      setRed (← grandparent n)
      insertBalance fuel (← grandparent n)
    else
      let p ← parentOf n
      let mut n := n
      if ← isRightChild n <&&> isLeftChild p then
        let _ ← rotateLeft p
        n ← left n
      else if ← isLeftChild n <&&> isRightChild p then
        let _ ← rotateRight p
        n ← right n
      let p ← parentOf n
      let g ← parentOf p
      if ← isLeftChild n then let _ ← rotateRight g else let _ ← rotateLeft g
      setBlack p
      setRed g

/-- `while (parent(n)) n = parent(n)` -/
def climb : Nat → Word → M K Word
  | 0, _ => diverge
  | fuel + 1, n => do
    let p ← parentOf n
    if p ≠ 0 then climb fuel p else return n

def insert (fuel : Nat) (root new : Word) (k : K) : M K Word := do
  insertUnbalanced pred fuel root new k
  insertBalance fuel new
  climb fuel new

end Insert

section Remove

/-- The rotations of `deleteBalance` and the recursion up the tree. -/
def deleteBalance : Nat → Word → M K Unit
  | 0, _ => diverge
  | fuel + 1, n => do
    if (← parentOf n) = 0 then return
    let s ← sibling n
    if ← isRedAt s then
      setRed (← parent n)
      setBlack s
      if ← isLeftChild n then let _ ← rotateLeft (← parent n) else let _ ← rotateRight (← parent n)
    let s ← sibling n
    if ← (do isBlack (← parent n)) <&&> isBlack s <&&> (do isBlack (← left s)) <&&> (do isBlack (← right s)) then
      setRed s
      return ← deleteBalance fuel (← parent n)
    if ← (do isRed (← parent n)) <&&> isBlack s <&&> (do isBlack (← left s)) <&&> (do isBlack (← right s)) then
      setRed s
      setBlack (← parent n)
      return
    if ← isLeftChild n <&&> (do isBlack (← right s)) <&&> (do isRed (← left s)) then
      setRed s
      setBlack (← left s)
      let _ ← rotateRight s
    else if ← isRightChild n <&&> (do isBlack (← left s)) <&&> (do isRed (← right s)) then
      setRed s
      setBlack (← right s)
      let _ ← rotateLeft s
    let s ← sibling n
    setColour s (← isRed (← parent n))
    setBlack (← parent n)
    if ← isLeftChild n then
      setBlack (← right s)
      let _ ← rotateLeft (← parent n)
    else
      setBlack (← left s)
      let _ ← rotateRight (← parent n)

/-- The new root and the removed node. The child that moves up may be null. -/
def remove (fuel : Nat) (del : Word) : M K (Word × Word) := do
  if (← right del) ≠ 0 && (← left del) ≠ 0 then
    let pre ← prev fuel del
    exchangeNodes pre del
  let p ← parentOf del
  let l ← left del
  let c ← if l ≠ 0 then pure l else right del
  setParent c p
  if ← isLeftChild del then setLeft p c else setRight p c
  deleteBalance fuel c
  return (← climb fuel c, del)

end Remove

end XviOs.RBTree
