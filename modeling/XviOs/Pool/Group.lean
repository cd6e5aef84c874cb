import Mathlib.Tactic
import XviOs.Library.BitField
import XviOs.Library.ListFamily
import XviOs.Pool.Header

namespace XviOs.Pool

open Library.Bits

/-- The three lists of a `PoolList`. -/
inductive Kind
  | partialList
  | fullList
  | emptyList
  deriving DecidableEq

structure PoolList where
  list : Kind → Nat
  freeBlocks : Nat
  totalBlocks : Nat
  emptyPools : Nat

/-- The lists of a group and the headers of its pools, by address. The addresses of the pools that there are and the
blocks that clients hold are kept for reference. -/
structure PoolGroup where
  lists : Nat → PoolList
  header : Nat → PoolHeader
  nextHeader : Nat → Nat
  prevHeader : Nat → Nat
  pools : Finset Nat
  live : Nat → Finset Nat

/-- `PoolGroup::PoolCount` with 64-bit pointers and the settings of the source. -/
def poolCount : Nat := 40

def poolIndex (size : Nat) : Nat :=
  if size ≤ 8 then 0
  else if size ≤ 256 then (size + 7) / 8
  else
    let rounded := 2 ^ Nat.clog 2 size
    let order := bitWidth rounded - 1 - 8
    if size > rounded - rounded / 4 then order * 2 else order * 2 - 1

namespace PoolGroup

variable (σ : PoolGroup)

def modifyList (i : Nat) (f : PoolList → PoolList) : PoolGroup :=
  { σ with lists := Function.update σ.lists i (f (σ.lists i)) }

def setHead (i : Nat) (k : Kind) (pool : Nat) : PoolGroup :=
  σ.modifyList i fun l => { l with list := Function.update l.list k pool }

def setNext (pool next : Nat) : PoolGroup := { σ with nextHeader := Function.update σ.nextHeader pool next }

def setPrev (pool prev : Nat) : PoolGroup := { σ with prevHeader := Function.update σ.prevHeader pool prev }

def setHeader (pool : Nat) (h : PoolHeader) : PoolGroup := { σ with header := Function.update σ.header pool h }

def removeFrom (i : Nat) (k : Kind) (pool : Nat) : PoolGroup :=
  let next := σ.nextHeader pool
  let prev := σ.prevHeader pool
  let σ₁ := if prev = 0 then σ.setHead i k next else σ.setNext prev next
  let σ₂ := if next = 0 then σ₁ else σ₁.setPrev next prev
  (σ₂.setNext pool 0).setPrev pool 0

def insertInto (i : Nat) (k : Kind) (pool : Nat) : PoolGroup :=
  let next := (σ.lists i).list k
  let σ₁ := ((σ.setNext pool next).setPrev pool 0).setHead i k pool
  if next ≠ 0 then σ₁.setPrev next pool else σ₁

/-- The pool that a block is taken from: the first of the partial list, or else of the empty list. -/
def candidate (i : Nat) : Nat :=
  if (σ.lists i).list .partialList = 0 then (σ.lists i).list .emptyList else (σ.lists i).list .partialList

/-- The candidate is on the partial list afterwards. -/
def takeEmpty (i : Nat) : PoolGroup :=
  if (σ.lists i).list .partialList = 0 then
    ((σ.removeFrom i .emptyList (σ.candidate i)).insertInto i .partialList (σ.candidate i)).modifyList i fun l =>
      { l with emptyPools := (l.emptyPools + 2 ^ 64 - 1) % 2 ^ 64 }
  else σ

/-- The block, or 0, and the group after it. -/
def allocateFromPoolList (i : Nat) : Nat × PoolGroup :=
  let pool := σ.candidate i
  if pool = 0 then (0, σ)
  else
    let σ₁ := σ.takeEmpty i
    let (block, h) := (σ₁.header pool).allocate
    if block = 0 then (0, σ₁)
    else
      let σ₂ := (σ₁.setHeader pool h).modifyList i fun l =>
        { l with freeBlocks := (l.freeBlocks + 2 ^ 64 - 1) % 2 ^ 64 }
      if h.freeCount = 0 then (block, (σ₂.removeFrom i .partialList pool).insertInto i .fullList pool) else (block, σ₂)

/-- The pool is gone. -/
def destroyPool (pool : Nat) : PoolGroup := { σ with pools := σ.pools.erase pool }

/-- `keep` is what `policyShouldKeepEmptyPool` answers. -/
def freeBlockInPool (block pool : Nat) (keep : Bool) : PoolGroup :=
  let i := poolIndex (σ.header pool).blockSize
  let h := (σ.header pool).free block
  let σ₁ := (σ.setHeader pool h).modifyList i fun l => { l with freeBlocks := (l.freeBlocks + 1) % 2 ^ 64 }
  if h.freeCount = 1 then (σ₁.removeFrom i .fullList pool).insertInto i .partialList pool
  else if h.freeCount = h.blockCount then
    let σ₂ := σ₁.removeFrom i .partialList pool
    if keep then
      (σ₂.insertInto i .emptyList pool).modifyList i fun l => { l with emptyPools := (l.emptyPools + 1) % 2 ^ 64 }
    else
      (σ₂.destroyPool pool).modifyList i fun l =>
        { l with
          freeBlocks := (l.freeBlocks + 2 ^ 64 - h.blockCount) % 2 ^ 64
          totalBlocks := (l.totalBlocks + 2 ^ 64 - h.blockCount) % 2 ^ 64 }
  else σ₁

end PoolGroup

end XviOs.Pool

namespace XviOs.Pool.PoolGroup

open Library.LinkedList

/-- The first pools of the lists that there are. -/
def heads (σ : PoolGroup) (x : Fin poolCount × Kind) : Nat := (σ.lists x.1).list x.2

variable {σ : PoolGroup} {chain : Fin poolCount × Kind → List Nat} {i : Fin poolCount}
  {k k' : Kind} {p q : Nat}

/-- The lists of the group are as `chain` says. -/
def Linked (σ : PoolGroup) (chain : Fin poolCount × Kind → List Nat) : Prop :=
  Family 0 σ.nextHeader σ.prevHeader σ.heads chain

@[simp] theorem heads_setNext (σ : PoolGroup) (p q : Nat) : (σ.setNext p q).heads = σ.heads := rfl

@[simp] theorem heads_setPrev (σ : PoolGroup) (p q : Nat) : (σ.setPrev p q).heads = σ.heads := rfl

@[simp] theorem heads_setHead (σ : PoolGroup) (i : Fin poolCount) (k : Kind) (p : Nat) :
    (σ.setHead i k p).heads = Function.update σ.heads (i, k) p := by
  funext x
  obtain ⟨j, k'⟩ := x
  rw [heads, setHead, modifyList]
  dsimp only
  obtain rfl | hj := eq_or_ne j i
  · rw [Function.update_self]
    obtain rfl | hk := eq_or_ne k' k
    · dsimp only
      rw [Function.update_self, Function.update_self]
    · dsimp only
      rw [Function.update_of_ne hk, Function.update_of_ne fun heq => hk (congrArg Prod.snd heq)]
      rfl
  · rw [Function.update_of_ne fun heq => hj (Fin.ext heq), Function.update_of_ne fun heq => hj (congrArg Prod.fst heq)]
    rfl

theorem heads_removeFrom (σ : PoolGroup) (i : Fin poolCount) (k : Kind) (p : Nat) :
    (σ.removeFrom i k p).heads =
      Function.update σ.heads (i, k) (if σ.prevHeader p = 0 then σ.nextHeader p else σ.heads (i, k)) := by
  rw [removeFrom]
  split
  · split <;> simp
  · split <;> simp

theorem nextHeader_removeFrom (σ : PoolGroup) (i : Nat) (k : Kind) (p : Nat) :
    (σ.removeFrom i k p).nextHeader =
      Function.update (if σ.prevHeader p = 0 then σ.nextHeader
        else Function.update σ.nextHeader (σ.prevHeader p) (σ.nextHeader p)) p 0 := by
  rw [removeFrom]
  split
  · split <;> rfl
  · split <;> rfl

theorem prevHeader_removeFrom (σ : PoolGroup) (i : Nat) (k : Kind) (p : Nat) :
    (σ.removeFrom i k p).prevHeader =
      Function.update (if σ.nextHeader p = 0 then σ.prevHeader
        else Function.update σ.prevHeader (σ.nextHeader p) (σ.prevHeader p)) p 0 := by
  rw [removeFrom]
  split
  · split <;> rfl
  · split <;> rfl

theorem heads_insertInto (σ : PoolGroup) (i : Fin poolCount) (k : Kind) (p : Nat) :
    (σ.insertInto i k p).heads = Function.update σ.heads (i, k) p := by
  rw [insertInto]
  split <;> simp

theorem nextHeader_insertInto (σ : PoolGroup) (i : Fin poolCount) (k : Kind) (p : Nat) :
    (σ.insertInto i k p).nextHeader = Function.update σ.nextHeader p (σ.heads (i, k)) := by
  rw [insertInto]
  split <;> rfl

theorem prevHeader_insertInto (σ : PoolGroup) (i : Fin poolCount) (k : Kind) (p : Nat) :
    (σ.insertInto i k p).prevHeader =
      if σ.heads (i, k) = 0 then Function.update σ.prevHeader p 0
      else Function.update (Function.update σ.prevHeader p 0) (σ.heads (i, k)) p := by
  rw [insertInto]
  split
  · next h =>
    have hne : ¬ σ.heads (i, k) = 0 := h
    rw [if_neg hne]
    rfl
  · next h =>
    have heq : σ.heads (i, k) = 0 := not_not.mp h
    rw [if_pos heq]
    rfl

/-- One thread of a list is led past a node. -/
theorem bypass {threads : Nat → Nat} {u v x : Nat} (hp : x ≠ p) (hx : x ≠ 0) :
    Function.update (if u = 0 then threads else Function.update threads u v) p 0 x = if x = u then v else threads x := by
  rw [Function.update_of_ne hp]
  by_cases hu : u = 0
  · rw [if_pos hu, if_neg (hu ▸ hx)]
  · rw [if_neg hu, Function.update_apply]

theorem linked_removeFrom (h : Linked σ chain) (hp : p ∈ chain (i, k)) :
    Linked (σ.removeFrom i k p) (Function.update chain (i, k) ((chain (i, k)).erase p)) := by
  rw [Linked, heads_removeFrom]
  apply h.remove hp
  · intro x hx hnull
    rw [nextHeader_removeFrom, bypass hx hnull]
  · intro x hx hnull
    rw [prevHeader_removeFrom, bypass hx hnull]

theorem linked_insertInto (h : Linked σ chain) (hp : p ≠ 0) (hfresh : ∀ j, p ∉ chain j) :
    Linked (σ.insertInto i k p) (Function.update chain (i, k) (p :: chain (i, k))) := by
  have hhead : σ.heads (i, k) ≠ 0 → σ.heads (i, k) ≠ p := by
    rintro hne rfl
    exact hfresh (i, k) (h.head_mem hne)
  rw [Linked, heads_insertInto, nextHeader_insertInto, prevHeader_insertInto]
  apply h.insert hp hfresh
  · exact Function.update_self _ _ _
  · by_cases hne : σ.heads (i, k) = 0
    · rw [if_pos hne, Function.update_self]
    · rw [if_neg hne, Function.update_of_ne (hhead hne).symm, Function.update_self]
  · intro x hx hnull
    exact Function.update_of_ne hx _ _
  · intro x hx hnull
    by_cases hne : σ.heads (i, k) = 0
    · rw [if_pos hne, Function.update_of_ne hx, if_neg (hne ▸ hnull)]
    · rw [if_neg hne, Function.update_apply, Function.update_of_ne hx]

/-- The lists after a pool has left one of them, and is the first of another one. -/
def moved (chain : Fin poolCount × Kind → List Nat) (i : Fin poolCount) (k k' : Kind) (p : Nat) :
    Fin poolCount × Kind → List Nat :=
  Function.update (Function.update chain (i, k) ((chain (i, k)).erase p)) (i, k') (p :: chain (i, k'))

theorem linked_move (h : Linked σ chain) (hp : p ∈ chain (i, k)) (hk : k' ≠ k) :
    Linked ((σ.removeFrom i k p).insertInto i k' p) (moved chain i k k' p) := by
  have hne : (i, k') ≠ (i, k) := fun heq => hk (congrArg Prod.snd heq)
  have hinsert := linked_insertInto (i := i) (k := k') (linked_removeFrom h hp) (h.ne_null hp) (by
    intro x hx
    obtain rfl | hxk := eq_or_ne x (i, k)
    · rw [Function.update_self] at hx
      exact (h.nodup (i, k)).not_mem_erase hx
    · rw [Function.update_of_ne hxk] at hx
      exact hxk (h.disjoint x (i, k) p hx hp))
  rwa [Function.update_of_ne hne] at hinsert

theorem mem_moved (h : Linked σ chain) (hp : p ∈ chain (i, k)) (hk : k' ≠ k) (x : Fin poolCount × Kind) :
    q ∈ moved chain i k k' p x ↔ q = p ∧ x = (i, k') ∨ q ≠ p ∧ q ∈ chain x := by
  have honly : ∀ y, p ∈ chain y → y = (i, k) := fun y hy => h.disjoint y (i, k) p hy hp
  rw [moved]
  obtain rfl | hx' := eq_or_ne x (i, k')
  · rw [Function.update_self, List.mem_cons]
    have hnot : p ∉ chain (i, k') := fun hmem => hk (congrArg Prod.snd (honly _ hmem))
    by_cases hq : q = p
    · simp [hq]
    · simp [hq]
  · rw [Function.update_of_ne hx']
    obtain rfl | hx := eq_or_ne x (i, k)
    · rw [Function.update_self, (h.nodup _).mem_erase_iff]
      simp [hx']
    · rw [Function.update_of_ne hx]
      have hne : q ∈ chain x → q ≠ p := by
        rintro hq rfl
        exact hx (honly x hq)
      simp only [hx', and_false, false_or]
      exact ⟨fun hq => ⟨hne hq, hq⟩, And.right⟩

theorem moved_of_ne {x : Fin poolCount × Kind} (hx : x ≠ (i, k)) (hx' : x ≠ (i, k')) :
    moved chain i k k' p x = chain x := by
  rw [moved, Function.update_of_ne hx', Function.update_of_ne hx]

end XviOs.Pool.PoolGroup
