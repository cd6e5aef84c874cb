import Mathlib.Tactic
import XviOs.Pool.Group

namespace XviOs.Pool.PoolGroup

open Library.LinkedList Library.Bitmap PoolHeader

/-- Which list a pool belongs on. -/
def Belongs (h : PoolHeader) : Kind → Prop
  | .partialList => 0 < h.freeCount ∧ h.freeCount < h.blockCount
  | .fullList => h.freeCount = 0
  | .emptyList => h.freeCount = h.blockCount

def indexOf (σ : PoolGroup) (p : Nat) : Nat := poolIndex (σ.header p).blockSize

/-- The sum of the free counts over the pools of a list. -/
def totalFree (σ : PoolGroup) (i : Nat) : Nat := ∑ p ∈ σ.pools with σ.indexOf p = i, (σ.header p).freeCount

def totalEmpty (σ : PoolGroup) (i : Nat) : Nat :=
  {p ∈ σ.pools | σ.indexOf p = i ∧ (σ.header p).freeCount = (σ.header p).blockCount}.card

/-- The lists of a group and its counters are right. -/
structure Right (σ : PoolGroup) : Prop where
  counts : ∀ p ∈ σ.pools, (σ.header p).freeCount + (σ.live p).card = (σ.header p).blockCount
  one : ∀ p ∈ σ.pools, ∃! k, Belongs (σ.header p) k
  lists : ∀ i < poolCount, ∀ k, ∃ l, DList 0 σ.nextHeader σ.prevHeader ((σ.lists i).list k) 0 l ∧ l.Nodup ∧
    ∀ p, p ∈ l ↔ p ∈ σ.pools ∧ σ.indexOf p = i ∧ Belongs (σ.header p) k
  freeBlocks : ∀ i < poolCount, (σ.lists i).freeBlocks = σ.totalFree i
  emptyPools : ∀ i < poolCount, (σ.lists i).emptyPools = σ.totalEmpty i

/-- What a group can count on: its lists are there, its pools fit the address space, and the bits of the blocks that
clients hold are set. -/
structure Sound (σ : PoolGroup) : Prop where
  index : ∀ p ∈ σ.pools, σ.indexOf p < poolCount
  fits : ∑ p ∈ σ.pools, (σ.header p).blockCount < 2 ^ 64
  held : ∀ p ∈ σ.pools, ∀ b ∈ σ.live p,
    ∃ j < (σ.header p).blockCount, bit (σ.header p).bitmap j = true ∧ (σ.header p).indexToBlock j = b

/-- The same as `Right` and `Sound` with the lists that there are. -/
structure Inv (σ : PoolGroup) (chain : Fin poolCount × Kind → List Nat) : Prop where
  sound : Sound σ
  linked : Linked σ chain
  mem : ∀ (i : Fin poolCount) k p, p ∈ chain (i, k) ↔ p ∈ σ.pools ∧ σ.indexOf p = i ∧ Belongs (σ.header p) k
  freeBlocks : ∀ i : Fin poolCount, (σ.lists i).freeBlocks = σ.totalFree i
  emptyPools : ∀ i : Fin poolCount, (σ.lists i).emptyPools = (chain (i, .emptyList)).length
  counts : ∀ p ∈ σ.pools, (σ.header p).freeCount + (σ.live p).card = (σ.header p).blockCount
  pos : ∀ p ∈ σ.pools, 0 < (σ.header p).blockCount

variable {σ τ : PoolGroup} {chain chain' : Fin poolCount × Kind → List Nat} {i : Fin poolCount} {k k' : Kind}
  {h h' : PoolHeader} {p q : Nat}

section Belonging

theorem belongs_unique (hpos : 0 < h.blockCount) (hk : Belongs h k) (hk' : Belongs h k') : k = k' := by
  cases k <;> cases k' <;> first | rfl | (simp only [Belongs] at hk hk'; omega)

theorem exists_belongs (hle : h.freeCount ≤ h.blockCount) : ∃ k, Belongs h k := by
  by_cases hfull : h.freeCount = 0
  · exact ⟨.fullList, hfull⟩
  · by_cases hempty : h.freeCount = h.blockCount
    · exact ⟨.emptyList, hempty⟩
    · exact ⟨.partialList, Nat.pos_of_ne_zero hfull, lt_of_le_of_ne hle hempty⟩

/-- A pool without blocks would belong on two lists. -/
theorem pos_of_one (hone : ∃! k, Belongs h k) (hcount : h.freeCount ≤ h.blockCount) : 0 < h.blockCount := by
  obtain ⟨k, -, hunique⟩ := hone
  by_contra hzero
  have hfull : Belongs h .fullList := show h.freeCount = 0 by omega
  have hempty : Belongs h .emptyList := show h.freeCount = h.blockCount by omega
  exact absurd ((hunique _ hfull).trans (hunique _ hempty).symm) (by decide)

theorem Inv.totalEmpty_eq (hσ : Inv σ chain) (i : Fin poolCount) : σ.totalEmpty i = (chain (i, .emptyList)).length := by
  rw [← List.toFinset_card_of_nodup (hσ.linked.nodup _), totalEmpty]
  congr 1
  ext p
  rw [Finset.mem_filter, List.mem_toFinset, hσ.mem]
  rfl

theorem Inv.right (hσ : Inv σ chain) : Right σ where
  counts := hσ.counts
  one p hp := by
    have hcount := hσ.counts p hp
    obtain ⟨k, hk⟩ := exists_belongs (h := σ.header p) (by omega)
    exact ⟨k, hk, fun k' hk' => belongs_unique (hσ.pos p hp) hk' hk⟩
  lists i hi k := ⟨chain (⟨i, hi⟩, k), hσ.linked.list (⟨i, hi⟩, k), hσ.linked.nodup _, hσ.mem ⟨i, hi⟩ k⟩
  freeBlocks i hi := hσ.freeBlocks ⟨i, hi⟩
  emptyPools i hi := (hσ.emptyPools ⟨i, hi⟩).trans (hσ.totalEmpty_eq ⟨i, hi⟩).symm

theorem Right.pos (hσ : Right σ) (hp : p ∈ σ.pools) : 0 < (σ.header p).blockCount := by
  have hcount := hσ.counts p hp
  exact pos_of_one (hσ.one p hp) (by omega)

theorem Right.inv (hσ : Right σ) (hsound : Sound σ) : ∃ chain, Inv σ chain := by
  choose l hl using fun x : Fin poolCount × Kind => hσ.lists x.1 x.1.isLt x.2
  have hlinked : Linked σ l := by
    refine ⟨fun x => (hl x).1, fun x => (hl x).2.1, ?_⟩
    rintro ⟨i, k⟩ ⟨j, k'⟩ p hi hj
    obtain ⟨hp, hindex, hk⟩ := ((hl (i, k)).2.2 p).mp hi
    obtain ⟨-, hindex', hk'⟩ := ((hl (j, k')).2.2 p).mp hj
    exact Prod.ext (Fin.ext (hindex.symm.trans hindex')) (belongs_unique (hσ.pos hp) hk hk')
  have hmem : ∀ (i : Fin poolCount) k p, p ∈ l (i, k) ↔ p ∈ σ.pools ∧ σ.indexOf p = i ∧ Belongs (σ.header p) k :=
    fun i k => (hl (i, k)).2.2
  refine ⟨l, hsound, hlinked, hmem, fun i => hσ.freeBlocks i i.isLt, ?_, hσ.counts, fun p hp => hσ.pos hp⟩
  intro i
  rw [hσ.emptyPools i i.isLt, ← List.toFinset_card_of_nodup (hlinked.nodup _), totalEmpty]
  congr 1
  ext p
  rw [Finset.mem_filter, List.mem_toFinset, hmem]
  rfl

/-- The first pool of a list belongs on it. -/
theorem Right.belongs_head (hσ : Right σ) (hp : (σ.lists i).list k = p) (hne : p ≠ 0) : Belongs (σ.header p) k := by
  obtain ⟨l, hlist, -, hl⟩ := hσ.lists i i.isLt k
  have hhead := hlist.head_eq
  rw [hp] at hhead
  cases l with
  | nil => exact absurd hhead hne
  | cons q l =>
    have hmem : p ∈ q :: l := hhead ▸ List.mem_cons_self
    exact ((hl p).mp hmem).2.2

end Belonging

end XviOs.Pool.PoolGroup

namespace XviOs.Pool.PoolGroup

open Library.LinkedList Library.Bitmap PoolHeader

variable {σ τ υ : PoolGroup} {chain chain' : Fin poolCount × Kind → List Nat} {i : Fin poolCount} {k k' : Kind}
  {h : PoolHeader} {l : Finset Nat} {p q n : Nat}

/-- Only the lists differ. -/
structure Same (σ τ : PoolGroup) : Prop where
  header : τ.header = σ.header
  pools : τ.pools = σ.pools
  live : τ.live = σ.live
  freeBlocks : ∀ j, (τ.lists j).freeBlocks = (σ.lists j).freeBlocks
  emptyPools : ∀ j, (τ.lists j).emptyPools = (σ.lists j).emptyPools

section Frames

theorem Same.trans (hσ : Same σ τ) (hτ : Same τ υ) : Same σ υ where
  header := hτ.header.trans hσ.header
  pools := hτ.pools.trans hσ.pools
  live := hτ.live.trans hσ.live
  freeBlocks j := (hτ.freeBlocks j).trans (hσ.freeBlocks j)
  emptyPools j := (hτ.emptyPools j).trans (hσ.emptyPools j)

theorem lists_modifyList (σ : PoolGroup) (i : Nat) (f : PoolList → PoolList) (j : Nat) :
    (σ.modifyList i f).lists j = if j = i then f (σ.lists i) else σ.lists j :=
  Function.update_apply _ _ _ _

theorem same_setHead (σ : PoolGroup) (i : Nat) (k : Kind) (p : Nat) : Same σ (σ.setHead i k p) := by
  refine ⟨rfl, rfl, rfl, ?_, ?_⟩
  · intro j
    rw [setHead, lists_modifyList]
    split
    · next h => rw [h]
    · rfl
  · intro j
    rw [setHead, lists_modifyList]
    split
    · next h => rw [h]
    · rfl

theorem same_setNext (σ : PoolGroup) (p q : Nat) : Same σ (σ.setNext p q) := ⟨rfl, rfl, rfl, fun _ => rfl, fun _ => rfl⟩

theorem same_setPrev (σ : PoolGroup) (p q : Nat) : Same σ (σ.setPrev p q) := ⟨rfl, rfl, rfl, fun _ => rfl, fun _ => rfl⟩

theorem same_removeFrom (σ : PoolGroup) (i : Nat) (k : Kind) (p : Nat) : Same σ (σ.removeFrom i k p) := by
  rw [removeFrom]
  apply Same.trans _ ((same_setNext _ _ _).trans (same_setPrev _ _ _))
  split
  · split
    · exact same_setHead _ _ _ _
    · exact same_setNext _ _ _
  · apply Same.trans _ (same_setPrev _ _ _)
    split
    · exact same_setHead _ _ _ _
    · exact same_setNext _ _ _

theorem same_insertInto (σ : PoolGroup) (i : Nat) (k : Kind) (p : Nat) : Same σ (σ.insertInto i k p) := by
  have hfirst : Same σ (((σ.setNext p ((σ.lists i).list k)).setPrev p 0).setHead i k p) :=
    ((same_setNext _ _ _).trans (same_setPrev _ _ _)).trans (same_setHead _ _ _ _)
  rw [insertInto]
  split
  · exact hfirst.trans (same_setPrev _ _ _)
  · exact hfirst

theorem same_move (σ : PoolGroup) (i : Nat) (k k' : Kind) (p : Nat) :
    Same σ ((σ.removeFrom i k p).insertInto i k' p) :=
  (same_removeFrom _ _ _ _).trans (same_insertInto _ _ _ _)

/-- Counters and headers are no part of the lists. -/
theorem heads_modifyList {j : Nat} {f : PoolList → PoolList} (hf : ∀ l, (f l).list = l.list) :
    (σ.modifyList j f).heads = σ.heads := by
  funext x
  rw [heads, heads, lists_modifyList]
  split
  · next h => rw [hf, h]
  · rfl

theorem linked_modifyList {j : Nat} {f : PoolList → PoolList} (hf : ∀ l, (f l).list = l.list) (hσ : Linked σ chain) :
    Linked (σ.modifyList j f) chain := by
  rw [Linked, heads_modifyList hf]
  exact hσ

end Frames

section Totals

theorem totalFree_update (hp : p ∈ σ.pools) (hpools : τ.pools = σ.pools) (hheader : τ.header = Function.update σ.header p h)
    (hsize : h.blockSize = (σ.header p).blockSize) (j : Nat) :
    τ.totalFree j + (if σ.indexOf p = j then (σ.header p).freeCount else 0) =
      σ.totalFree j + if σ.indexOf p = j then h.freeCount else 0 := by
  have hself : τ.header p = h := by rw [hheader, Function.update_self]
  have hother : ∀ q, q ≠ p → τ.header q = σ.header q := fun q hq => by rw [hheader, Function.update_of_ne hq]
  have hindex : ∀ q, τ.indexOf q = σ.indexOf q := by
    intro q
    rw [indexOf, indexOf]
    obtain rfl | hq := eq_or_ne q p
    · rw [hself, hsize]
    · rw [hother q hq]
  rw [totalFree, totalFree, hpools]
  simp only [hindex, Finset.sum_filter]
  rw [← Finset.add_sum_erase _ _ hp, ← Finset.add_sum_erase _ _ hp, hself]
  have hrest : ∑ q ∈ σ.pools.erase p, (if σ.indexOf q = j then (τ.header q).freeCount else 0) =
      ∑ q ∈ σ.pools.erase p, if σ.indexOf q = j then (σ.header q).freeCount else 0 := by
    apply Finset.sum_congr rfl
    intro q hq
    rw [hother q (Finset.ne_of_mem_erase hq)]
  rw [hrest]
  omega

theorem totalBlocks_eq (hpools : τ.pools = σ.pools) (hheader : τ.header = Function.update σ.header p h)
    (hblocks : h.blockCount = (σ.header p).blockCount) :
    ∑ q ∈ τ.pools, (τ.header q).blockCount = ∑ q ∈ σ.pools, (σ.header q).blockCount := by
  rw [hpools]
  apply Finset.sum_congr rfl
  intro q hq
  rw [hheader]
  obtain rfl | hne := eq_or_ne q p
  · rw [Function.update_self, hblocks]
  · rw [Function.update_of_ne hne]

/-- The free counts of a list stay below the number of blocks. -/
theorem totalFree_le (hcounts : ∀ p ∈ σ.pools, (σ.header p).freeCount ≤ (σ.header p).blockCount) (i : Nat) :
    σ.totalFree i ≤ ∑ p ∈ σ.pools, (σ.header p).blockCount := by
  calc σ.totalFree i ≤ ∑ p ∈ σ.pools, (σ.header p).freeCount :=
        Finset.sum_le_sum_of_subset (Finset.filter_subset _ _)
    _ ≤ ∑ p ∈ σ.pools, (σ.header p).blockCount := Finset.sum_le_sum hcounts

end Totals

/-- One pool gets a new header, and is on the list that it belongs on then. -/
theorem Inv.update (hσ : Inv σ chain) (hp : p ∈ σ.pools) (hlinked : Linked τ chain')
    (hmem : ∀ (j : Fin poolCount) k'' q, q ∈ chain' (j, k'') ↔
      q = p ∧ σ.indexOf p = j ∧ k'' = k' ∨ q ≠ p ∧ q ∈ chain (j, k''))
    (hpools : τ.pools = σ.pools) (hheader : τ.header = Function.update σ.header p h)
    (hlive : τ.live = Function.update σ.live p l) (hsize : h.blockSize = (σ.header p).blockSize)
    (hblocks : h.blockCount = (σ.header p).blockCount) (hbelongs : Belongs h k')
    (hcount : h.freeCount + l.card = h.blockCount)
    (hheld : ∀ b ∈ l, ∃ j < h.blockCount, bit h.bitmap j = true ∧ h.indexToBlock j = b)
    (hfree : ∀ i : Fin poolCount, (τ.lists i).freeBlocks = τ.totalFree i)
    (hempty : ∀ i : Fin poolCount, (τ.lists i).emptyPools = (chain' (i, .emptyList)).length) : Inv τ chain' := by
  have hself : τ.header p = h := by rw [hheader, Function.update_self]
  have hother : ∀ q, q ≠ p → τ.header q = σ.header q := fun q hq => by rw [hheader, Function.update_of_ne hq]
  have hlself : τ.live p = l := by rw [hlive, Function.update_self]
  have hlother : ∀ q, q ≠ p → τ.live q = σ.live q := fun q hq => by rw [hlive, Function.update_of_ne hq]
  have hpos : 0 < h.blockCount := by
    rw [hblocks]
    exact hσ.pos p hp
  have hindex : ∀ q, τ.indexOf q = σ.indexOf q := by
    intro q
    rw [indexOf, indexOf]
    obtain rfl | hq := eq_or_ne q p
    · rw [hself, hsize]
    · rw [hother q hq]
  refine ⟨⟨?_, ?_, ?_⟩, hlinked, ?_, hfree, hempty, ?_, ?_⟩
  · intro q hq
    rw [hindex]
    exact hσ.sound.index q (hpools ▸ hq)
  · rw [totalBlocks_eq hpools hheader hblocks]
    exact hσ.sound.fits
  · intro q hq b hb
    obtain rfl | hne := eq_or_ne q p
    · rw [hself]
      rw [hlself] at hb
      exact hheld b hb
    · rw [hother q hne]
      rw [hlother q hne] at hb
      exact hσ.sound.held q (hpools ▸ hq) b hb
  · intro j k'' q
    rw [hmem, hpools, hindex]
    obtain rfl | hne := eq_or_ne q p
    · rw [hself]
      simp only [true_and, ne_eq, not_true_eq_false, false_and, or_false, hp]
      refine and_congr_right fun _ => ⟨?_, ?_⟩
      · rintro rfl
        exact hbelongs
      · exact fun hk => belongs_unique hpos hk hbelongs
    · rw [hother q hne, hσ.mem]
      simp [hne]
  · intro q hq
    obtain rfl | hne := eq_or_ne q p
    · rw [hself, hlself]
      exact hcount
    · rw [hother q hne, hlother q hne]
      exact hσ.counts q (hpools ▸ hq)
  · intro q hq
    obtain rfl | hne := eq_or_ne q p
    · rw [hself]
      exact hpos
    · rw [hother q hne]
      exact hσ.pos q (hpools ▸ hq)

end XviOs.Pool.PoolGroup
