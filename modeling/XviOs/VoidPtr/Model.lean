import XviOs.Algorithm.Introsort

namespace XviOs.VoidPtr

open Library.StateProgram Algorithm

/-- `std::byte`, the value type of `voidptr_iter`. -/
abbrev Byte := BitVec 8

/-- What a `const byte&` is bound to: a byte of the array, by its address, or a local variable. -/
inductive Ref
  | place (address : ℕ)
  | temporary (value : Byte)

section

variable (compare : List Byte → List Byte → ℤ) (size lo hi : ℕ)

/-- The bytes from an address on. Only the bytes of the array may be accessed. -/
def bytes : ℕ → ℕ → Sorter Byte (List Byte)
  | 0, _ => pure []
  | n + 1, a => do
    let b ← read lo hi a
    return b :: (← bytes n (a + 1))

/-- What the comparison function finds where the pointer leads. It reads an element; a local variable is one byte. -/
def element : Ref → Sorter Byte (List Byte)
  | .place a => bytes lo hi size a
  | .temporary b => if size = 1 then pure [b] else fun _ => none

def wrappedPred (a b : Ref) : Sorter Byte Bool := do
  let x ← element size lo hi a
  let y ← element size lo hi b
  return compare x y < 0

/-- `it + n`. -/
def advance (it n : ℕ) : ℕ := it + n * size

/-- `last - first`. -/
def distance (first last : ℕ) : ℕ := (last - first) / size

def insertionShift (first : ℕ) (tmp : Byte) : ℕ → Sorter Byte ℕ
  | 0 => pure 0
  | j + 1 => do
    if ← wrappedPred compare size lo hi (.temporary tmp) (.place (advance size first j)) then
      write lo hi (advance size first (j + 1)) (← read lo hi (advance size first j))
      insertionShift first tmp j
    else pure (j + 1)

def insertionSort (first last : ℕ) : Sorter Byte Unit :=
  if distance size first last < 2 then pure ()
  else
    repeatFrom (fun i => do
      let tmp ← read lo hi (advance size first i)
      let j ← insertionShift compare size lo hi first tmp i
      write lo hi (advance size first j) tmp) 1 (distance size first last - 1)

def swapIfLess (i j : ℕ) : Sorter Byte Unit := do
  if ← wrappedPred compare size lo hi (.place i) (.place j) then iterSwap lo hi i j else pure ()

def medianOfThree (first last : ℕ) : Sorter Byte ℕ :=
  if distance size first last < 3 then pure first
  else do
    let middle := advance size first (distance size first last / 2)
    swapIfLess compare size lo hi (last - size) first
    swapIfLess compare size lo hi middle first
    swapIfLess compare size lo hi (last - size) middle
    return middle

section Partition

variable (pred : ℕ → Sorter Byte Bool)

def scanUp : ℕ → ℕ → ℕ → Sorter Byte ℕ
  | 0, _, _ => fun _ => none
  | n + 1, first, last =>
    if first = last then pure first
    else do
      if ← pred first then scanUp n (first + size) last else pure first

def scanDown : ℕ → ℕ → ℕ → Sorter Byte ℕ
  | 0, _, _ => fun _ => none
  | n + 1, first, last =>
    if last = first then pure last
    else do
      if ← pred (last - size) then pure last else scanDown n first (last - size)

def partitionLoop : ℕ → ℕ → ℕ → Sorter Byte ℕ
  | 0, _, _ => fun _ => none
  | n + 1, first, last => do
    let first ← scanUp size pred (distance size first last + 1) first last
    let last ← scanDown size pred (distance size first last + 1) first last
    if first = last then pure first
    else
      iterSwap lo hi first (last - size)
      partitionLoop n (first + size) (if first + size ≠ last then last - size else last)

def partition (first last : ℕ) : Sorter Byte ℕ :=
  partitionLoop size lo hi pred (distance size first last + 1) first last

end Partition

def larger (first length largest child : ℕ) : Sorter Byte ℕ :=
  if child < length then do
    if ← wrappedPred compare size lo hi (.place (advance size first largest)) (.place (advance size first child)) then
      pure child
    else pure largest
  else pure largest

def heapifyLoop : ℕ → ℕ → ℕ → ℕ → Sorter Byte Bool
  | 0, _, _, _ => fun _ => none
  | n + 1, first, last, index => do
    let length := distance size first last
    let largest ← larger compare size lo hi first length index (heapLeft index)
    let largest ← larger compare size lo hi first length largest (heapRight index)
    if largest ≠ index then
      iterSwap lo hi (advance size first index) (advance size first largest)
      let _ ← heapifyLoop n first last largest
      pure true
    else pure false

def heapify (first last index : ℕ) : Sorter Byte Bool :=
  heapifyLoop compare size lo hi (distance size first last + 1) first last index

def popHeap (first last : ℕ) : Sorter Byte Unit := do
  iterSwap lo hi first (last - size)
  let _ ← heapify compare size lo hi first (last - size) 0

def makeHeap (first last : ℕ) : Sorter Byte Unit :=
  repeatFrom (fun i => do
    let _ ← heapify compare size lo hi first last (distance size first last - i - 1)) 0 (distance size first last)

def reverseLoop : ℕ → ℕ → ℕ → Sorter Byte Unit
  | 0, _, _ => fun _ => none
  | n + 1, first, last =>
    if first = last then pure ()
    else do
      iterSwap lo hi first last
      if first + size = last then pure () else reverseLoop n (first + size) (last - size)

/-- The place before the first one is not there. -/
def reverse (first last : ℕ) : Sorter Byte Unit :=
  if last < size then fun _ => none else reverseLoop size lo hi (hi - first + 1) first (last - size)

def sortHeap (first last : ℕ) : Sorter Byte Unit := do
  repeatFrom (fun i => popHeap compare size lo hi first (last - i * size)) 0 (distance size first last)
  reverse size lo hi first (last - distance size first last * size)

def quickStep (first last : ℕ) : Sorter Byte ℕ := do
  let pivot ← medianOfThree compare size lo hi first last
  let stash := last - size
  iterSwap lo hi pivot stash
  let pivot ← partition size lo hi (fun x => wrappedPred compare size lo hi (.place x) (.place stash)) first stash
  iterSwap lo hi pivot stash
  return pivot

def introsort : ℕ → ℕ → ℕ → Sorter Byte Unit
  | depth, first, last =>
    if distance size first last ≤ 1 then pure ()
    else if distance size first last ≤ insertionSortThreshold then insertionSort compare size lo hi first last
    else
      match depth with
      | 0 => do
        makeHeap compare size lo hi first last
        sortHeap compare size lo hi first last
      | depth + 1 => do
        let pivot ← quickStep compare size lo hi first last
        introsort depth first pivot
        introsort depth (pivot + size) last

/-- The loop of `lower_bound`. The first argument bounds the rounds. -/
def lowerBoundLoop (value : Byte) : ℕ → ℕ → ℕ → ℕ → Sorter Byte ℕ
  | 0, _, _, _ => fun _ => none
  | n + 1, first, last, length =>
    if first = last then pure first
    else do
      let mid := length / 2
      let middle := advance size first mid
      if ← wrappedPred compare size lo hi (.place middle) (.temporary value) then
        lowerBoundLoop value n (middle + size) last (length - (mid + 1))
      else lowerBoundLoop value n first middle mid

def lowerBound (first last : ℕ) (value : Byte) : Sorter Byte ℕ :=
  let length := distance size first last
  lowerBoundLoop compare size lo hi value (length + 1) first last length

end

def qsort (compare : List Byte → List Byte → ℤ) (size base nmemb : ℕ) : Sorter Byte Unit :=
  let last := advance size base nmemb
  introsort compare size base last (2 * bitWidth (distance size base last)) base last

/-- The array is not changed. The result is a null pointer or an address. -/
def bsearch (compare : List Byte → List Byte → ℤ) (key : List Byte) (size base nmemb : ℕ) :
    Sorter Byte (Option ℕ) := do
  let last := advance size base nmemb
  let value := key.headD 0
  let result ← lowerBound compare size base last base last value
  if result = last then return none
  if ← wrappedPred compare size base last (.temporary value) (.place base) then return none
  return some base

/-- The element with an index. -/
def elementAt (size base : ℕ) (f : ℕ → Byte) (i : ℕ) : List Byte :=
  (List.range size).map fun k => f (advance size base i + k)

def elements (size base nmemb : ℕ) (f : ℕ → Byte) : List (List Byte) := (List.range nmemb).map (elementAt size base f)

/-- The comparison function is a strict weak ordering of the elements of the size. -/
def Ordered (compare : List Byte → List Byte → ℤ) (size : ℕ) : Prop :=
  StrictWeak fun x y : {l : List Byte // l.length = size} => decide (compare x.1 y.1 < 0)

/-- No element is less than one before it. -/
def Sorted (compare : List Byte → List Byte → ℤ) (size base nmemb : ℕ) (f : ℕ → Byte) : Prop :=
  ∀ i j, i < j → j < nmemb → ¬ compare (elementAt size base f j) (elementAt size base f i) < 0

/-- The call returns and leaves a sorted permutation of the elements, with all other bytes as they were. -/
structure Sorts (compare : List Byte → List Byte → ℤ) (size base nmemb : ℕ) (f g : ℕ → Byte) : Prop where
  returns : qsort compare size base nmemb f = some ((), g)
  outside : ∀ a, ¬ (base ≤ a ∧ a < base + nmemb * size) → g a = f a
  perm : (elements size base nmemb g).Perm (elements size base nmemb f)
  sorted : Sorted compare size base nmemb g

/-- The element compares equal to the key. -/
def Equal (compare : List Byte → List Byte → ℤ) (x key : List Byte) : Prop := ¬ compare x key < 0 ∧ ¬ compare key x < 0

/-- The call returns a pointer to an element that is equal to the key, or null where there is none. -/
structure Finds (compare : List Byte → List Byte → ℤ) (key : List Byte) (size base nmemb : ℕ) (f : ℕ → Byte)
    (result : Option ℕ) : Prop where
  returns : bsearch compare key size base nmemb f = some (result, f)
  found : ∀ a ∈ result, ∃ i < nmemb, a = advance size base i ∧ Equal compare (elementAt size base f i) key
  absent : result = none → ∀ i < nmemb, ¬ Equal compare (elementAt size base f i) key

end XviOs.VoidPtr

namespace XviOs.VoidPtr

open Library.StateProgram Algorithm

variable {compare : List Byte → List Byte → ℤ} {lo hi : ℕ}

/-- What the comparison function is for elements of one byte. -/
def byteLess (compare : List Byte → List Byte → ℤ) (x y : Byte) : Bool := compare [x] [y] < 0

theorem advance_one (it n : ℕ) : advance 1 it n = it + n := by rw [advance, Nat.mul_one]

theorem distance_one (first last : ℕ) : distance 1 first last = last - first := by rw [distance, Nat.div_one]

theorem element_place_one (a : ℕ) : element 1 lo hi (.place a) = (do return [← Algorithm.read lo hi a]) := by
  simp [element, bytes]

theorem element_temporary_one (b : Byte) : element 1 lo hi (.temporary b) = pure [b] := rfl

theorem wrappedPred_places (a b : ℕ) :
    wrappedPred compare 1 lo hi (.place a) (.place b) = (do
      let x ← Algorithm.read lo hi a
      let y ← Algorithm.read lo hi b
      return byteLess compare x y) := by
  simp only [wrappedPred, element_place_one, bind_assoc, pure_bind]
  rfl

theorem wrappedPred_temporary (tmp : Byte) (b : ℕ) :
    wrappedPred compare 1 lo hi (.temporary tmp) (.place b) = (do
      return byteLess compare tmp (← Algorithm.read lo hi b)) := by
  simp only [wrappedPred, element_place_one, element_temporary_one, bind_assoc, pure_bind]
  rfl

theorem wrappedPred_value (a : ℕ) (value : Byte) :
    wrappedPred compare 1 lo hi (.place a) (.temporary value) = (do
      return byteLess compare (← Algorithm.read lo hi a) value) := by
  simp only [wrappedPred, element_place_one, element_temporary_one, bind_assoc, pure_bind]
  rfl

theorem insertionShift_one (first : ℕ) (tmp : Byte) (j : ℕ) :
    insertionShift compare 1 lo hi first tmp j = Algorithm.insertionShift (byteLess compare) lo hi first tmp j := by
  induction j with
  | zero => rfl
  | succ j ih =>
    rw [insertionShift, Algorithm.insertionShift]
    simp only [advance_one, wrappedPred_temporary, ih, bind_assoc, pure_bind]
    -- the element is read by the comparison and again by the move
    funext f
    by_cases ha : lo ≤ first + j ∧ first + j < hi
    · by_cases hless : byteLess compare tmp (f (first + j)) <;>
        simp [bind, StateT.bind, Algorithm.read, ha, hless]
    · simp [bind, StateT.bind, Algorithm.read, ha]

theorem insertionSort_one (first last : ℕ) :
    insertionSort compare 1 lo hi first last = Algorithm.insertionSort (byteLess compare) lo hi first last := by
  simp only [insertionSort, Algorithm.insertionSort, distance_one, advance_one, insertionShift_one]

theorem swapIfLess_one (i j : ℕ) :
    swapIfLess compare 1 lo hi i j = Algorithm.swapIfLess (byteLess compare) lo hi i j := by
  simp only [swapIfLess, Algorithm.swapIfLess, wrappedPred_places, bind_assoc, pure_bind]

theorem medianOfThree_one (first last : ℕ) :
    medianOfThree compare 1 lo hi first last = Algorithm.medianOfThree (byteLess compare) lo hi first last := by
  simp only [medianOfThree, Algorithm.medianOfThree, distance_one, advance_one, swapIfLess_one]

section Partition

variable {pred : ℕ → Sorter Byte Bool} {pred' : Byte → Sorter Byte Bool}

theorem scanUp_one (hpred : ∀ a, pred a = (do pred' (← Algorithm.read lo hi a))) (n first last : ℕ) :
    scanUp 1 pred n first last = Algorithm.scanUp lo hi pred' n first last := by
  induction n generalizing first with
  | zero => rfl
  | succ n ih =>
    simp only [scanUp, Algorithm.scanUp, hpred, ih, bind_assoc]

theorem scanDown_one (hpred : ∀ a, pred a = (do pred' (← Algorithm.read lo hi a))) (n first last : ℕ) :
    scanDown 1 pred n first last = Algorithm.scanDown lo hi pred' n first last := by
  induction n generalizing last with
  | zero => rfl
  | succ n ih =>
    simp only [scanDown, Algorithm.scanDown, hpred, ih, bind_assoc]

theorem partitionLoop_one (hpred : ∀ a, pred a = (do pred' (← Algorithm.read lo hi a))) (n first last : ℕ) :
    partitionLoop 1 lo hi pred n first last = Algorithm.partitionLoop lo hi pred' n first last := by
  induction n generalizing first last with
  | zero => rfl
  | succ n ih =>
    simp only [partitionLoop, Algorithm.partitionLoop, scanUp_one hpred, scanDown_one hpred, distance_one, ih]

theorem partition_one (hpred : ∀ a, pred a = (do pred' (← Algorithm.read lo hi a))) (first last : ℕ) :
    partition 1 lo hi pred first last = Algorithm.partition lo hi pred' first last := by
  rw [partition, partitionLoop_one hpred, distance_one, Algorithm.partition]

end Partition

theorem larger_one (first length largest child : ℕ) :
    larger compare 1 lo hi first length largest child =
      Algorithm.larger (byteLess compare) lo hi first length largest child := by
  simp only [larger, Algorithm.larger, wrappedPred_places, advance_one, bind_assoc, pure_bind, apply_ite pure]

theorem heapifyLoop_one (n first last index : ℕ) :
    heapifyLoop compare 1 lo hi n first last index =
      Algorithm.heapifyLoop (byteLess compare) lo hi n first last index := by
  induction n generalizing index with
  | zero => rfl
  | succ n ih =>
    simp only [heapifyLoop, Algorithm.heapifyLoop, larger_one, advance_one, distance_one, ih]

theorem popHeap_one (first last : ℕ) :
    popHeap compare 1 lo hi first last = Algorithm.popHeap (byteLess compare) lo hi first last := by
  simp only [popHeap, Algorithm.popHeap, heapify, Algorithm.heapify, heapifyLoop_one, distance_one]

theorem makeHeap_one (first last : ℕ) :
    makeHeap compare 1 lo hi first last = Algorithm.makeHeap (byteLess compare) lo hi first last := by
  simp only [makeHeap, Algorithm.makeHeap, heapify, Algorithm.heapify, heapifyLoop_one, distance_one]

theorem reverseLoop_one (n first last : ℕ) :
    reverseLoop 1 lo hi n first last = Algorithm.reverseLoop lo hi n first last := by
  induction n generalizing first last with
  | zero => rfl
  | succ n ih => simp only [reverseLoop, Algorithm.reverseLoop, ih]

theorem reverse_one (first last : ℕ) : reverse 1 lo hi first last = Algorithm.reverse lo hi first last := by
  simp only [reverse, Algorithm.reverse, reverseLoop_one, Nat.lt_one_iff]

theorem sortHeap_one (first last : ℕ) :
    sortHeap compare 1 lo hi first last = Algorithm.sortHeap (byteLess compare) lo hi first last := by
  simp only [sortHeap, Algorithm.sortHeap, popHeap_one, reverse_one, distance_one, Nat.mul_one]

theorem quickStep_one (first last : ℕ) :
    quickStep compare 1 lo hi first last = Algorithm.quickStep (byteLess compare) lo hi first last := by
  have hpred (a : ℕ) : wrappedPred compare 1 lo hi (.place a) (.place (last - 1)) = (do
      let x ← Algorithm.read lo hi a
      (do return byteLess compare x (← Algorithm.read lo hi (last - 1)) : Sorter Byte Bool)) := wrappedPred_places _ _
  simp only [quickStep, Algorithm.quickStep, medianOfThree_one, partition_one hpred]

/-- The sort of elements of one byte is the sort of the bytes. -/
theorem introsort_one (depth first last : ℕ) :
    introsort compare 1 lo hi depth first last = Algorithm.introsort (byteLess compare) lo hi depth first last := by
  induction depth generalizing first last with
  | zero =>
    simp only [introsort, Algorithm.introsort, distance_one, insertionSort_one, makeHeap_one, sortHeap_one]
  | succ depth ih =>
    simp only [introsort, Algorithm.introsort, distance_one, insertionSort_one, quickStep_one, ih]

theorem qsort_one (base nmemb : ℕ) :
    qsort compare 1 base nmemb = Algorithm.sort (byteLess compare) base (base + nmemb) := by
  simp only [qsort, Algorithm.sort, introsort_one, advance_one, distance_one]

end XviOs.VoidPtr
