import XviOs.Library.StateProgram

namespace XviOs.Algorithm

open Library.StateProgram

/-- Programs over the places of a random-access range. None is an access that is not allowed, or a loop that did not
end within its bound. A value that was moved from is left in its place. -/
abbrev Sorter (α : Type) := StateT (Nat → α) Option

section Sorting

variable {α : Type} (comp : α → α → Bool) (lo hi : Nat)

/-- Only the places from `lo` to `hi` may be accessed. -/
def read (i : Nat) : Sorter α α := fun f => if lo ≤ i ∧ i < hi then some (f i, f) else none

def write (i : Nat) (x : α) : Sorter α Unit := fun f =>
  if lo ≤ i ∧ i < hi then some ((), Function.update f i x) else none

def iterSwap (i j : Nat) : Sorter α Unit := do
  let x ← read lo hi i
  let y ← read lo hi j
  write lo hi i y
  write lo hi j x

/-- The inner loop of the insertion sort, which moves greater elements up. It gives the place for the new one. -/
def insertionShift (first : Nat) (tmp : α) : Nat → Sorter α Nat
  | 0 => pure 0
  | j + 1 => do
    let x ← read lo hi (first + j)
    if comp tmp x then
      write lo hi (first + (j + 1)) x
      insertionShift first tmp j
    else pure (j + 1)

def insertionSort (first last : Nat) : Sorter α Unit :=
  if last - first < 2 then pure ()
  else
    repeatFrom (fun i => do
      let tmp ← read lo hi (first + i)
      let j ← insertionShift comp lo hi first tmp i
      write lo hi (first + j) tmp) 1 (last - first - 1)

def swapIfLess (i j : Nat) : Sorter α Unit := do
  let x ← read lo hi i
  let y ← read lo hi j
  if comp x y then iterSwap lo hi i j else pure ()

def medianOfThree (first last : Nat) : Sorter α Nat :=
  if last - first < 3 then pure first
  else do
    let middle := first + (last - first) / 2
    swapIfLess comp lo hi (last - 1) first
    swapIfLess comp lo hi middle first
    swapIfLess comp lo hi (last - 1) middle
    return middle

section Partition

variable (pred : α → Sorter α Bool)

/-- The loops of the partition. The first argument bounds the rounds. -/
def scanUp : Nat → Nat → Nat → Sorter α Nat
  | 0, _, _ => fun _ => none
  | n + 1, first, last =>
    if first = last then pure first
    else do
      let x ← read lo hi first
      if ← pred x then scanUp n (first + 1) last else pure first

def scanDown : Nat → Nat → Nat → Sorter α Nat
  | 0, _, _ => fun _ => none
  | n + 1, first, last =>
    if last = first then pure last
    else do
      let x ← read lo hi (last - 1)
      if ← pred x then pure last else scanDown n first (last - 1)

def partitionLoop : Nat → Nat → Nat → Sorter α Nat
  | 0, _, _ => fun _ => none
  | n + 1, first, last => do
    let first ← scanUp lo hi pred (last - first + 1) first last
    let last ← scanDown lo hi pred (last - first + 1) first last
    if first = last then pure first
    else
      iterSwap lo hi first (last - 1)
      partitionLoop n (first + 1) (if first + 1 ≠ last then last - 1 else last)

/-- The partition of Hoare. -/
def partition (first last : Nat) : Sorter α Nat := partitionLoop lo hi pred (last - first + 1) first last

end Partition

def heapLeft (i : Nat) : Nat := 2 * i + 1

def heapRight (i : Nat) : Nat := 2 * i + 2

/-- The test of one child by `__heapify`. -/
def larger (first length largest child : Nat) : Sorter α Nat :=
  if child < length then do
    let x ← read lo hi (first + largest)
    let y ← read lo hi (first + child)
    pure (if comp x y then child else largest)
  else pure largest

def heapifyLoop : Nat → Nat → Nat → Nat → Sorter α Bool
  | 0, _, _, _ => fun _ => none
  | n + 1, first, last, index => do
    let largest ← larger comp lo hi first (last - first) index (heapLeft index)
    let largest ← larger comp lo hi first (last - first) largest (heapRight index)
    if largest ≠ index then
      iterSwap lo hi (first + index) (first + largest)
      let _ ← heapifyLoop n first last largest
      pure true
    else pure false

def heapify (first last index : Nat) : Sorter α Bool := heapifyLoop comp lo hi (last - first + 1) first last index

def popHeap (first last : Nat) : Sorter α Unit := do
  iterSwap lo hi first (last - 1)
  let _ ← heapify comp lo hi first (last - 1) 0

def makeHeap (first last : Nat) : Sorter α Unit :=
  repeatFrom (fun i => do
    let _ ← heapify comp lo hi first last (last - first - i - 1)) 0 (last - first)

/-- The loop with the range from `first` to `last`, where `last` is a place of it. -/
def reverseLoop : Nat → Nat → Nat → Sorter α Unit
  | 0, _, _ => fun _ => none
  | n + 1, first, last =>
    if first = last then pure ()
    else do
      iterSwap lo hi first last
      if first + 1 = last then pure () else reverseLoop n (first + 1) (last - 1)

/-- The place before the first one is not there. -/
def reverse (first last : Nat) : Sorter α Unit :=
  if last = 0 then fun _ => none else reverseLoop lo hi (hi - first + 1) first (last - 1)

/-- The pops have moved `last` down to `first` when the range is turned round. -/
def sortHeap (first last : Nat) : Sorter α Unit := do
  repeatFrom (fun i => popHeap comp lo hi first (last - i)) 0 (last - first)
  reverse lo hi first (last - (last - first))

/-- The step of the quicksort. It gives the place of the pivot. -/
def quickStep (first last : Nat) : Sorter α Nat := do
  let pivot ← medianOfThree comp lo hi first last
  let stash := last - 1
  iterSwap lo hi pivot stash
  let pivot ← partition lo hi (fun x => do return comp x (← read lo hi stash)) first stash
  iterSwap lo hi pivot stash
  return pivot

/-- The number of bits of a value. -/
def bitWidth (x : Nat) : Nat := if x = 0 then 0 else Nat.log2 x + 1

/-- Up to this number of elements the insertion sort is taken. -/
def insertionSortThreshold : Nat := 16

def introsort : Nat → Nat → Nat → Sorter α Unit
  | depth, first, last =>
    if last - first ≤ 1 then pure ()
    else if last - first ≤ insertionSortThreshold then insertionSort comp lo hi first last
    else
      match depth with
      | 0 => do
        makeHeap comp lo hi first last
        sortHeap comp lo hi first last
      | depth + 1 => do
        let pivot ← quickStep comp lo hi first last
        introsort depth first pivot
        introsort depth (pivot + 1) last

end Sorting

/-- Only the places of the range may be accessed. -/
def sort {α : Type} (comp : α → α → Bool) (first last : Nat) : Sorter α Unit :=
  introsort comp first last (2 * bitWidth (last - first)) first last

end XviOs.Algorithm
