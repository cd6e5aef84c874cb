import Mathlib.Tactic
import XviOs.Pool.Session
import XviOs.Pool.GroupInvariant

namespace XviOs.Pool.PoolGroup

open Library.LinkedList Library.Bitmap PoolHeader

variable {σ τ : PoolGroup} {chain chain' : Fin poolCount × Kind → List Nat} {i : Fin poolCount} {k k' : Kind}
  {h : PoolHeader} {p q b : Nat}

section Headers

theorem Inv.freeCount_le (hσ : Inv σ chain) (hp : p ∈ σ.pools) :
    (σ.header p).freeCount ≤ (σ.header p).blockCount ∧ (σ.header p).blockCount + 1 < 2 ^ 64 := by
  have hcount := hσ.counts p hp
  exact ⟨by omega, Session.blockCount_lt (hσ.pos p hp)⟩

/-- A block that is not in use is one that no client holds. -/
theorem Inv.fresh (hσ : Inv σ chain) (hp : p ∈ σ.pools) {j : Nat} (hj : j < (σ.header p).blockCount)
    (hbit : bit (σ.header p).bitmap j = false) :
    (σ.header p).indexToBlock j ∉ σ.live p ∧ 0 < (σ.header p).freeCount := by
  have hfresh : (σ.header p).indexToBlock j ∉ σ.live p := by
    intro hlive
    obtain ⟨j', hj', hbit', heq⟩ := hσ.sound.held p hp _ hlive
    rw [Session.indexToBlock_inj hj' hj heq, hbit] at hbit'
    exact absurd hbit' (by decide)
  refine ⟨hfresh, ?_⟩
  have hsub : insert ((σ.header p).indexToBlock j) (σ.live p) ⊆
      (Finset.range (σ.header p).blockCount).image (σ.header p).indexToBlock := by
    intro c hc
    obtain rfl | hc := Finset.mem_insert.mp hc
    · exact Finset.mem_image_of_mem _ (Finset.mem_range.mpr hj)
    · obtain ⟨j', hj', -, rfl⟩ := hσ.sound.held p hp c hc
      exact Finset.mem_image_of_mem _ (Finset.mem_range.mpr hj')
  have hcard := (Finset.card_le_card hsub).trans Finset.card_image_le
  rw [Finset.card_insert_of_notMem hfresh, Finset.card_range] at hcard
  have hcount := hσ.counts p hp
  omega

/-- What is left of a pool that a block is taken from. -/
structure TakenFrom (σ : PoolGroup) (p b : Nat) (h : PoolHeader) : Prop where
  ne_zero : b ≠ 0
  fresh : b ∉ σ.live p
  blockSize : h.blockSize = (σ.header p).blockSize
  blockCount : h.blockCount = (σ.header p).blockCount
  freeCount : h.freeCount + 1 = (σ.header p).freeCount
  held : ∀ c ∈ insert b (σ.live p), ∃ j < h.blockCount, bit h.bitmap j = true ∧ h.indexToBlock j = c

theorem Inv.allocate_header (hσ : Inv σ chain) (hp : p ∈ σ.pools) :
    ((σ.header p).allocate = (0, σ.header p) ∧ ∀ j < (σ.header p).blockCount, bit (σ.header p).bitmap j = true) ∨
      ∃ b h, (σ.header p).allocate = (b, h) ∧ TakenFrom σ p b h := by
  obtain hnull | ⟨j, h, hj, hbit, hbitmap, hfree, hblocks, hsize, hpool, halloc⟩ := (σ.header p).allocate_cases
  · exact Or.inl hnull
  · obtain ⟨hfresh, hpos⟩ := hσ.fresh hp hj hbit
    obtain ⟨hle, hlt⟩ := hσ.freeCount_le hp
    have hindex : h.indexToBlock = (σ.header p).indexToBlock := by
      funext j
      rw [indexToBlock, indexToBlock, hpool, hsize]
    have hset : ∀ j', bit h.bitmap j' = (decide (j = j') || bit (σ.header p).bitmap j') := by
      intro j'
      rw [hbitmap]
      exact bit_setBit (by decide) (index_div_lt hj)
    refine Or.inr ⟨_, h, halloc, indexToBlock_ne_zero hj, hfresh, hsize, hblocks, by omega, ?_⟩
    intro c hc
    rw [hindex, hblocks]
    obtain rfl | hc := Finset.mem_insert.mp hc
    · exact ⟨j, hj, by rw [hset, decide_eq_true rfl, Bool.true_or], rfl⟩
    · obtain ⟨j', hj', hbit', heq⟩ := hσ.sound.held p hp c hc
      exact ⟨j', hj', by rw [hset, hbit', Bool.or_true], heq⟩

end Headers

section Candidate

/-- The lists once the candidate is on the partial list. -/
structure Taken (σ τ : PoolGroup) (chain chain' : Fin poolCount × Kind → List Nat) (i : Fin poolCount) (p : Nat) :
    Prop where
  header : τ.header = σ.header
  pools : τ.pools = σ.pools
  live : τ.live = σ.live
  freeBlocks : ∀ j, (τ.lists j).freeBlocks = (σ.lists j).freeBlocks
  linked : Linked τ chain'
  mem : p ∈ chain' (i, .partialList)
  others : ∀ x q, q ≠ p → (q ∈ chain' x ↔ q ∈ chain x)
  emptyPools : ∀ j : Fin poolCount, (τ.lists j).emptyPools = (chain' (j, .emptyList)).length

theorem Inv.card_le (hσ : Inv σ chain) : σ.pools.card ≤ ∑ p ∈ σ.pools, (σ.header p).blockCount := by
  rw [Finset.card_eq_sum_ones]
  exact Finset.sum_le_sum fun p hp => hσ.pos p hp

theorem Inv.length_lt (hσ : Inv σ chain) (x : Fin poolCount × Kind) : (chain x).length < 2 ^ 64 := by
  have hsub : (chain x).toFinset ⊆ σ.pools := by
    intro p hp
    exact ((hσ.mem x.1 x.2 p).mp (List.mem_toFinset.mp hp)).1
  calc (chain x).length = (chain x).toFinset.card := (List.toFinset_card_of_nodup (hσ.linked.nodup x)).symm
    _ ≤ σ.pools.card := Finset.card_le_card hsub
    _ ≤ ∑ p ∈ σ.pools, (σ.header p).blockCount := hσ.card_le
    _ < 2 ^ 64 := hσ.sound.fits

theorem Inv.candidate_mem (hσ : Inv σ chain) (hp : σ.candidate i ≠ 0) :
    σ.candidate i ∈ chain (i, if (σ.lists i).list .partialList = 0 then .emptyList else .partialList) := by
  rw [candidate] at hp ⊢
  split
  · next h =>
    rw [if_pos h] at hp
    exact hσ.linked.head_mem hp
  · next h => exact hσ.linked.head_mem h

theorem Inv.takeEmpty (hσ : Inv σ chain) (hp : σ.candidate i ≠ 0) :
    ∃ chain', Taken σ (σ.takeEmpty i) chain chain' i (σ.candidate i) := by
  have hmem := hσ.candidate_mem hp
  rw [PoolGroup.takeEmpty]
  split
  · next h =>
    rw [if_pos h] at hmem
    have hsame := same_move σ i .emptyList .partialList (σ.candidate i)
    refine ⟨moved chain i .emptyList .partialList (σ.candidate i), hsame.header, hsame.pools, hsame.live, ?_,
      linked_modifyList (fun _ => rfl) (linked_move hσ.linked hmem (by decide)), ?_, ?_, ?_⟩
    · intro j
      rw [lists_modifyList]
      split
      · next hj => rw [hj]; exact hsame.freeBlocks i
      · exact hsame.freeBlocks j
    · exact (mem_moved hσ.linked hmem (by decide) _).mpr (Or.inl ⟨rfl, rfl⟩)
    · intro x q hq
      rw [mem_moved hσ.linked hmem (by decide)]
      simp [hq]
    · intro j
      rw [lists_modifyList]
      obtain rfl | hj := eq_or_ne j i
      · have hlt := hσ.length_lt (j, .emptyList)
        have hpos := List.length_pos_of_mem hmem
        rw [if_pos rfl]
        dsimp only
        rw [hsame.emptyPools, hσ.emptyPools, moved, Function.update_of_ne (by simp), Function.update_self,
          List.length_erase_of_mem hmem]
        omega
      · rw [if_neg (fun heq => hj (Fin.ext heq)), hsame.emptyPools, hσ.emptyPools,
          moved_of_ne (fun heq => hj (congrArg Prod.fst heq)) (fun heq => hj (congrArg Prod.fst heq))]
  · next h =>
    rw [if_neg h] at hmem
    exact ⟨chain, rfl, rfl, rfl, fun _ => rfl, hσ.linked, hmem, fun _ _ _ => Iff.rfl, hσ.emptyPools⟩

end Candidate

section Step

/-- The group after a block is taken from a pool of the partial list, which may be full then. -/
def afterTake (σ : PoolGroup) (i p : Nat) (h : PoolHeader) : PoolGroup :=
  let σ₂ := (σ.setHeader p h).modifyList i fun l => { l with freeBlocks := (l.freeBlocks + 2 ^ 64 - 1) % 2 ^ 64 }
  if h.freeCount = 0 then (σ₂.removeFrom i .partialList p).insertInto i .fullList p else σ₂

theorem allocateFromPoolList_eq (hp : σ.candidate i ≠ 0) :
    σ.allocateFromPoolList i =
      let r := ((σ.takeEmpty i).header (σ.candidate i)).allocate
      if r.1 = 0 then (0, σ.takeEmpty i) else (r.1, (σ.takeEmpty i).afterTake i (σ.candidate i) r.2) := by
  rw [allocateFromPoolList]
  dsimp only
  rw [if_neg hp, afterTake]
  by_cases hnull : (((σ.takeEmpty i).header (σ.candidate i)).allocate).1 = 0
  · rw [if_pos hnull, if_pos hnull]
  · rw [if_neg hnull, if_neg hnull]
    split
    · rfl
    · rfl

theorem same_afterTake (σ : PoolGroup) (i p : Nat) (h : PoolHeader) :
    Same ((σ.setHeader p h).modifyList i fun l => { l with freeBlocks := (l.freeBlocks + 2 ^ 64 - 1) % 2 ^ 64 })
      (σ.afterTake i p h) := by
  rw [afterTake]
  split
  · exact same_move _ _ _ _ _
  · exact ⟨rfl, rfl, rfl, fun _ => rfl, fun _ => rfl⟩

/-- A group like `σ` but for the blocks that the clients of one pool hold. -/
def withLive (σ : PoolGroup) (p : Nat) (live : Finset Nat) : PoolGroup :=
  { σ with live := Function.update σ.live p live }

theorem lists_withLive (σ : PoolGroup) (p : Nat) (live : Finset Nat) : (σ.withLive p live).lists = σ.lists := rfl

theorem linked_withLive (hσ : Linked σ chain) (p : Nat) (live : Finset Nat) : Linked (σ.withLive p live) chain := hσ

theorem Inv.afterTake (hσ : Inv σ chain) (hp : p ∈ σ.pools) (hindex : σ.indexOf p = i) (htaken : Taken σ τ chain chain' i p)
    (hfrom : TakenFrom σ p b h) :
    ∃ chain'', Inv ((τ.afterTake i p h).withLive p (insert b (σ.live p))) chain'' := by
  have hsame := same_afterTake τ i p h
  obtain ⟨hle, hlt⟩ := hσ.freeCount_le hp
  have hheader : (τ.afterTake i p h).header = Function.update σ.header p h := by
    rw [hsame.header]
    change Function.update τ.header p h = _
    rw [htaken.header]
  have hpools : (τ.afterTake i p h).pools = σ.pools := hsame.pools.trans htaken.pools
  have hlinked : Linked ((τ.setHeader p h).modifyList i fun l =>
      { l with freeBlocks := (l.freeBlocks + 2 ^ 64 - 1) % 2 ^ 64 }) chain' :=
    linked_modifyList (fun _ => rfl) htaken.linked
  have honly : ∀ x, p ∈ chain' x → x = (i, .partialList) := fun x hx => hlinked.disjoint x _ p hx htaken.mem
  obtain ⟨k, chain'', hbelongs, hlinked'', hmem, hempty⟩ : ∃ k chain'', Belongs h k ∧ Linked (τ.afterTake i p h) chain'' ∧
      (∀ (j : Fin poolCount) k'' q, q ∈ chain'' (j, k'') ↔
        q = p ∧ σ.indexOf p = j ∧ k'' = k ∨ q ≠ p ∧ q ∈ chain (j, k'')) ∧
      ∀ j : Fin poolCount, chain'' (j, .emptyList) = chain' (j, .emptyList) := by
    have hplace : ∀ (j : Fin poolCount) (k k'' : Kind), (j, k'') = (i, k) ↔ σ.indexOf p = j ∧ k'' = k := by
      intro j k k''
      rw [Prod.mk.injEq, hindex, Fin.val_inj, eq_comm]
    by_cases hfull : h.freeCount = 0
    · refine ⟨.fullList, moved chain' i .partialList .fullList p, hfull, ?_, ?_, ?_⟩
      · rw [PoolGroup.afterTake, if_pos hfull]
        exact linked_move hlinked htaken.mem (by decide)
      · intro j k'' q
        rw [mem_moved htaken.linked htaken.mem (by decide), hplace]
        exact or_congr_right (and_congr_right fun hq => htaken.others _ q hq)
      · intro j
        exact moved_of_ne (by simp) (by simp)
    · refine ⟨.partialList, chain', ⟨Nat.pos_of_ne_zero hfull, ?_⟩, ?_, ?_, fun _ => rfl⟩
      · rw [hfrom.blockCount]
        have := hfrom.freeCount
        omega
      · rw [PoolGroup.afterTake, if_neg hfull]
        exact hlinked
      · intro j k'' q
        rw [← hplace]
        by_cases hq : q = p
        · subst hq
          simp only [true_and, ne_eq, not_true_eq_false, false_and, or_false]
          exact ⟨honly _, fun hx => hx ▸ htaken.mem⟩
        · simp only [hq, false_and, ne_eq, not_false_eq_true, true_and, false_or]
          exact htaken.others _ q hq
  refine ⟨chain'', hσ.update hp hlinked'' hmem hpools hheader ?_
    hfrom.blockSize hfrom.blockCount hbelongs ?_ hfrom.held ?_ ?_⟩
  · change Function.update (τ.afterTake i p h).live p _ = _
    rw [hsame.live]
    change Function.update τ.live p _ = _
    rw [htaken.live]
  · have hcount := hσ.counts p hp
    have hfree := hfrom.freeCount
    rw [Finset.card_insert_of_notMem hfrom.fresh, hfrom.blockCount]
    omega
  · intro j
    have htotal := totalFree_update (τ := (τ.afterTake i p h).withLive p (insert b (σ.live p))) hp hpools hheader
      hfrom.blockSize j
    have hfree := hfrom.freeCount
    have hbound := (totalFree_le (fun q hq => (hσ.freeCount_le hq).1) j).trans_lt hσ.sound.fits
    change ((τ.afterTake i p h).lists j).freeBlocks = _
    rw [hsame.freeBlocks, lists_modifyList]
    change (if (j : Nat) = i then (⟨_, _, _, _⟩ : PoolList) else τ.lists j).freeBlocks = _
    rw [hindex] at htotal
    obtain rfl | hj := eq_or_ne j i
    · rw [if_pos rfl] at htotal ⊢
      rw [if_pos rfl] at htotal
      dsimp only
      rw [show (τ.setHeader p h).lists j = τ.lists j from rfl, htaken.freeBlocks, hσ.freeBlocks]
      omega
    · have hne : ¬ (j : Nat) = i := fun heq => hj (Fin.ext heq)
      have hne' : ¬ (i : Nat) = j := fun heq => hne heq.symm
      rw [if_neg hne', if_neg hne'] at htotal
      rw [if_neg hne, htaken.freeBlocks, hσ.freeBlocks]
      omega
  · intro j
    change ((τ.afterTake i p h).lists j).emptyPools = _
    rw [hempty, ← htaken.emptyPools, hsame.emptyPools, lists_modifyList]
    split
    · next heq =>
      rw [heq]
      rfl
    · rfl

end Step

end XviOs.Pool.PoolGroup
