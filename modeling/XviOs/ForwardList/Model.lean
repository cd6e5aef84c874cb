import Mathlib.Data.Finset.Card
import XviOs.Library.Links
import XviOs.Library.StateProgram

namespace XviOs.ForwardList

/-- What an iterator points to: the fake element before a list, or an element. The address 0 is `nullptr`. -/
abbrev Element (ι : Type) := ι ⊕ ℕ

/-- The field `_M_list` of each list, and the elements that are allocated. -/
structure Memory (ι α : Type) where
  list : ι → ℕ
  next : ℕ → ℕ
  data : ℕ → α
  live : Finset ℕ

/-- What the allocator does with the elements in use. -/
structure Allocator where
  allocate : Finset ℕ → ℕ
  allocate_notMem : ∀ live, allocate live ∉ live
  allocate_ne_null : ∀ live, allocate live ≠ 0

abbrev Program (ι α β : Type) := StateT (Memory ι α) Option β

variable {ι α : Type} [DecidableEq ι] (A : Allocator)

def getList (l : ι) : Program ι α ℕ := fun m => some (m.list l, m)

def setList (l : ι) (v : ℕ) : Program ι α Unit := fun m => some ((), { m with list := Function.update m.list l v })

/-- `__before` casts `__element_pp - 1`, so that `__next` of the fake element lies before `_M_list`, outside of the list.
Only an element that is allocated can be read. -/
def readNext : Element ι → Program ι α ℕ
  | .inl _ => fun _ => none
  | .inr p => fun m => if p ∈ m.live then some (m.next p, m) else none

def writeNext : Element ι → ℕ → Program ι α Unit
  | .inl _, _ => fun _ => none
  | .inr p, v => fun m => if p ∈ m.live then some ((), { m with next := Function.update m.next p v }) else none

def readData : Element ι → Program ι α α
  | .inl _ => fun _ => none
  | .inr p => fun m => if p ∈ m.live then some (m.data p, m) else none

/-- The number of steps after which a walk is in a circle. -/
def bound : Program ι α ℕ := fun m => some (m.live.card + 1, m)

def newElement (x : α) : Program ι α ℕ := fun m =>
  let p := A.allocate m.live
  some (p, { m with
    next := Function.update m.next p 0
    data := Function.update m.data p x
    live := insert p m.live })

def deleteElement (p : ℕ) : Program ι α Unit := fun m =>
  if p ∈ m.live then some ((), { m with live := m.live.erase p }) else none

def linkAfter (pos : Element ι) (new : ℕ) : Program ι α ℕ := do
  writeNext (.inr new) (← readNext pos)
  writeNext pos new
  return new

def emplaceFront (l : ι) (x : α) : Program ι α Unit := do
  let e ← newElement A x
  writeNext (.inr e) (← getList l)
  setList l e

def popFront (l : ι) : Program ι α Unit := do
  let e ← getList l
  if e = 0 then
    return
  setList l (← readNext (.inr e))
  deleteElement e

def emplaceAfter (position : Element ι) (x : α) : Program ι α (Element ι) := do
  let e ← newElement A x
  return .inr (← linkAfter position e)

/-- `insert_after` for `n` copies. -/
def insertAfterCopies (x : α) : ℕ → Element ι → Program ι α (Element ι)
  | 0, position => return position
  | n + 1, position => do insertAfterCopies x n (← emplaceAfter A position x)

/-- `insert_after` for a range. -/
def insertAfterRange : List α → Element ι → Program ι α (Element ι)
  | [], position => return position
  | x :: xs, position => do insertAfterRange xs (← emplaceAfter A position x)

def eraseAfter (position : Element ι) : Program ι α ℕ := do
  let e ← readNext position
  writeNext position (← readNext (.inr e))
  deleteElement e
  readNext position

def eraseAfterUntil (after : Element ι) (until_ : ℕ) : ℕ → Program ι α Unit
  | 0 => failure
  | n + 1 => do
    if (← readNext after) ≠ until_ then
      let _ ← eraseAfter after
      eraseAfterUntil after until_ n

/-- `erase_after` for a range. -/
def eraseAfterRange (position : Element ι) (last : ℕ) : Program ι α ℕ := do
  eraseAfterUntil position last (← bound)
  return last

/-- The first loop of `resize`. -/
def skip : ℕ → ℕ → Element ι → Program ι α (ℕ × Element ι)
  | 0, _, prev => return (0, prev)
  | sz + 1, first, prev => do
    if first = 0 then
      return (sz + 1, prev)
    let first ← readNext (.inr first)
    skip sz first (.inr (← readNext prev))

/-- With the value of a new element. -/
def resize (l : ι) (sz : ℕ) (c : α) : Program ι α Unit := do
  let (sz, prev) ← skip sz (← getList l) (.inl l)
  if 0 < sz then
    let _ ← insertAfterCopies A c sz prev
  else
    let _ ← eraseAfterRange prev 0

def clear (l : ι) : Program ι α Unit := do
  let _ ← eraseAfterRange (.inr (← getList l)) 0

/-- `splice_after` for a whole list. The loop increments the pointer, not to the next element but to behind the one it
points to, where there is none. -/
def spliceAfterAll (position : Element ι) (x : ι) : Program ι α Unit := do
  let tail ← readNext position
  writeNext position (← getList x)
  setList x 0
  if (← readNext position) ≠ 0 then
    failure
  writeNext position tail

/-- `splice_after` for a single element. -/
def spliceAfterOne (position i : Element ι) : Program ι α Unit := do
  let tail ← readNext position
  writeNext position (← readNext i)
  writeNext i (← readNext (.inr (← readNext i)))
  writeNext (.inr (← readNext position)) tail

def lastBefore (last : ℕ) : ℕ → Element ι → Program ι α (Element ι)
  | 0, _ => failure
  | n + 1, i => do
    let next ← readNext i
    if next = last then
      return i
    lastBefore last n (.inr next)

/-- `splice_after` for an open range. -/
def spliceAfterRange (position first : Element ι) (last : ℕ) : Program ι α Unit := do
  let tail ← readNext position
  writeNext position (← readNext first)
  writeNext first last
  let i ← lastBefore last (← bound) position
  writeNext i tail

def removeLoop (pred : α → Bool) : ℕ → ℕ → Element ι → ℕ → Program ι α ℕ
  | 0, _, _, _ => failure
  | fuel + 1, i, prev, n => do
    if i = 0 then
      return n
    let n ← if pred (← readData (.inr i)) then do
        let _ ← eraseAfter prev
        pure (n + 1)
      else pure n
    let i ← readNext (.inr i)
    removeLoop pred fuel i (.inr (← readNext prev)) n

def removeIf (pred : α → Bool) (l : ι) : Program ι α ℕ := do
  removeLoop pred (← bound) (← getList l) (.inl l) 0

/-- The inner loop of `unique`. -/
def eraseEqual (pred : α → α → Bool) (prev : Element ι) : ℕ → ℕ → ℕ → Program ι α (ℕ × ℕ)
  | 0, _, _ => failure
  | fuel + 1, i, n => do
    if pred (← readData prev) (← readData (.inr i)) then
      let i ← eraseAfter prev
      eraseEqual pred prev fuel i (n + 1)
    else
      return (i, n)

def uniqueLoop (pred : α → α → Bool) (l : ι) : ℕ → ℕ → Element ι → ℕ → Program ι α ℕ
  | 0, _, _, _ => failure
  | fuel + 1, i, prev, n => do
    if i = 0 then
      return n
    if prev = .inl l then
      -- `continue`, with `__prev` as it is
      uniqueLoop pred l fuel (← readNext (.inr i)) prev n
    else
      let (i, n) ← eraseEqual pred prev (← bound) i n
      uniqueLoop pred l fuel (← readNext (.inr i)) (.inr i) n

def unique (pred : α → α → Bool) (l : ι) : Program ι α ℕ := do
  uniqueLoop pred l (← bound) (← getList l) (.inl l) 0

def reverseLoop (temp l : ι) : ℕ → Program ι α Unit
  | 0 => failure
  | fuel + 1 => do
    if (← getList l) ≠ 0 then
      spliceAfterOne (.inl temp) (.inl l)
      reverseLoop temp l fuel

/-- With the list `__temp` of its own. -/
def reverse (temp l : ι) : Program ι α Unit := do
  setList temp 0
  reverseLoop temp l (← bound)
  spliceAfterAll (.inl l) temp

end XviOs.ForwardList

namespace XviOs.ForwardList

open Library.Links Library.StateProgram

variable {ι α : Type} {m m' : Memory ι α} {chain : ι → List ℕ} {k j : ι} {s p : Element ι}
  {A B C D M : List ℕ} {e v : ℕ} {x : α}

namespace Memory

/-- Where the start of a list, or an element, leads to. -/
def link (m : Memory ι α) : Element ι → ℕ := Sum.elim m.list m.next

def setLink [DecidableEq ι] (m : Memory ι α) : Element ι → ℕ → Memory ι α
  | .inl l, v => { m with list := Function.update m.list l v }
  | .inr p, v => { m with next := Function.update m.next p v }

section
variable [DecidableEq ι]

@[simp]
theorem link_setLink (m : Memory ι α) (s : Element ι) (v : ℕ) : (m.setLink s v).link = Function.update m.link s v := by
  cases s with
  | inl l => exact Sum.update_elim_inl.symm
  | inr p => exact Sum.update_elim_inr.symm

@[simp]
theorem live_setLink (m : Memory ι α) (s : Element ι) (v : ℕ) : (m.setLink s v).live = m.live := by
  cases s <;> rfl

@[simp]
theorem data_setLink (m : Memory ι α) (s : Element ι) (v : ℕ) : (m.setLink s v).data = m.data := by
  cases s <;> rfl

end

/-- It is an element that is allocated. -/
def Readable (m : Memory ι α) (s : Element ι) : Prop := ∃ p ∈ m.live, s = .inr p

@[simp]
theorem readable_inr : m.Readable (.inr v) ↔ v ∈ m.live := by simp [Readable]

@[simp]
theorem readable_setLink [DecidableEq ι] : (m.setLink p v).Readable s ↔ m.Readable s := by simp [Readable]

end Memory

theorem readNext_eq (h : m.Readable s) : readNext s m = some (m.link s, m) := by
  obtain ⟨p, hp, rfl⟩ := h
  exact if_pos hp

theorem writeNext_eq [DecidableEq ι] (h : m.Readable s) (v : ℕ) : writeNext s v m = some ((), m.setLink s v) := by
  obtain ⟨p, hp, rfl⟩ := h
  exact if_pos hp

theorem setList_eq [DecidableEq ι] (l : ι) (v : ℕ) (m : Memory ι α) : setList l v m = some ((), m.setLink (.inl l) v) := rfl

/-- The elements of the lists are those that are allocated, and each is in one list. -/
structure Holds (m : Memory ι α) (chain : ι → List ℕ) : Prop where
  apart : Apart 0 chain
  threads : Threads 0 m.link chain
  live : ∀ p, p ∈ m.live ↔ ∃ i, p ∈ chain i

/-- What the elements of the lists contain. -/
def contents (m : Memory ι α) (chain : ι → List ℕ) (l : ι) : List α := (chain l).map m.data

namespace Holds

theorem readable (h : Holds m chain) (hk : chain k = A ++ B) (hA : A ≠ []) : m.Readable (endOf (.inl k) A) := by
  obtain ⟨x, hx, heq⟩ := endOf_mem (s := .inl k) hA
  exact ⟨x, (h.live x).mpr ⟨k, hk ▸ List.mem_append_left B hx⟩, heq⟩

theorem card_le (h : Holds m chain) (hk : chain k = A ++ M ++ B) : M.length ≤ m.live.card := by
  have hnodup := h.apart.nodup k
  rw [hk, List.nodup_append, List.nodup_append] at hnodup
  rw [← List.toFinset_card_of_nodup hnodup.1.2.1]
  apply Finset.card_le_card
  intro x hx
  rw [List.mem_toFinset] at hx
  exact (h.live x).mpr ⟨k, by rw [hk]; exact List.mem_append_left B (List.mem_append_right A hx)⟩

variable [DecidableEq ι]

/-- An element is new at its place. -/
theorem insert (h : Holds m chain) (hk : chain k = A ++ B) (he : e ∉ m.live) (hnull : e ≠ 0)
    (hlink : m'.link = Function.update (Function.update m.link (.inr e) (B.headD 0)) (endOf (.inl k) A) e)
    (hlive : m'.live = Insert.insert e m.live) : Holds m' (Function.update chain k (A ++ [e] ++ B)) := by
  have hfresh : ∀ i, e ∉ chain i := fun i hi => he ((h.live e).mpr ⟨i, hi⟩)
  have hreplaces := replaces_insert hk hnull hfresh
  refine ⟨hreplaces.apart h.apart, h.apart.threads_insert h.threads hk hnull hfresh hlink, fun p => ?_⟩
  rw [hlive, Finset.mem_insert, h.live, hreplaces.exists_mem_iff h.apart, List.mem_singleton,
    and_iff_left List.not_mem_nil]

/-- An element is taken out of its list. -/
theorem erase (h : Holds m chain) (hk : chain k = A ++ [e] ++ B)
    (hlink : m'.link = Function.update m.link (endOf (.inl k) A) (B.headD 0))
    (hlive : m'.live = m.live.erase e) : Holds m' (Function.update chain k (A ++ [] ++ B)) := by
  have hreplaces := Apart.replaces_nil 0 hk
  refine ⟨hreplaces.apart h.apart, h.apart.threads_erase h.threads hk fun r _ => hlink ▸ rfl, fun p => ?_⟩
  rw [hlive, Finset.mem_erase, h.live, hreplaces.exists_mem_iff h.apart, List.mem_singleton,
    or_iff_right List.not_mem_nil, and_comm]

theorem move (h : Holds m chain) (hj : chain j = C ++ M ++ D)
    (hk : Function.update chain j (C ++ [] ++ D) k = A ++ B)
    (hpath : Path m'.link (endOf (.inl k) A) M
      (Function.update m.link (endOf (.inl j) C) (D.headD 0) (endOf (.inl k) A)))
    (hsame : ∀ r, r ≠ endOf (.inl k) A → (∀ x ∈ M, r ≠ .inr x) →
      m'.link r = Function.update m.link (endOf (.inl j) C) (D.headD 0) r)
    (hlive : m'.live = m.live) :
    Holds m' (Function.update (Function.update chain j (C ++ [] ++ D)) k (A ++ M ++ B)) := by
  refine ⟨h.apart.move hj hk, h.apart.threads_move h.threads hj hk hpath hsame, fun p => ?_⟩
  rw [hlive, h.live, h.apart.exists_mem_move_iff hj hk]

end Holds

end XviOs.ForwardList
