import Mathlib.Tactic
import XviOs.Pool.GroupAllocate

namespace XviOs.Pool.PoolGroup

open Library.LinkedList Library.Bitmap PoolHeader

variable {σ τ : PoolGroup} {chain chain' : Fin poolCount × Kind → List Nat} {i : Fin poolCount} {k k' : Kind}
  {h : PoolHeader} {p q b : Nat}

/-- A pool that a block is put back into. -/
structure PutBack (σ : PoolGroup) (p b : Nat) (h : PoolHeader) : Prop where
  blockSize : h.blockSize = (σ.header p).blockSize
  blockCount : h.blockCount = (σ.header p).blockCount
  freeCount : h.freeCount = (σ.header p).freeCount + 1
  count : h.freeCount + ((σ.live p).erase b).card = h.blockCount
  held : ∀ c ∈ (σ.live p).erase b, ∃ j < h.blockCount, bit h.bitmap j = true ∧ h.indexToBlock j = c

/-- The bit of a block that is freed was set, and stays set. -/
theorem Inv.putBack (hσ : Inv σ chain) (hp : p ∈ σ.pools) (hb : b ∈ σ.live p) : PutBack σ p b ((σ.header p).free b) := by
  obtain ⟨j, hj, hbit, rfl⟩ := hσ.sound.held p hp b hb
  obtain ⟨hle, hlt⟩ := hσ.freeCount_le hp
  have hcount := hσ.counts p hp
  have hcard : 0 < (σ.live p).card := Finset.card_pos.mpr ⟨_, hb⟩
  have hfree : ((σ.header p).freeCount + 1) % 2 ^ 64 = (σ.header p).freeCount + 1 := Nat.mod_eq_of_lt (by omega)
  rw [free_indexToBlock hj, hfree]
  refine ⟨rfl, rfl, rfl, ?_, ?_⟩
  · rw [Finset.card_erase_of_mem hb, mark_freeCount, mark_blockCount]
    omega
  · intro c hc
    obtain ⟨j', hj', hbit', heq⟩ := hσ.sound.held p hp c (Finset.mem_of_mem_erase hc)
    refine ⟨j', hj', ?_, heq⟩
    rw [mark_bitmap, ← setBit, setBit_of_bit hbit]
    exact hbit'

/-- The group after a block is put back, with all pools where they were. -/
def afterPut (σ : PoolGroup) (i p : Nat) (h : PoolHeader) : PoolGroup :=
  (σ.setHeader p h).modifyList i fun l => { l with freeBlocks := (l.freeBlocks + 1) % 2 ^ 64 }

theorem freeBlocks_afterPut (σ : PoolGroup) (i p : Nat) (h : PoolHeader) (j : Nat) :
    ((σ.afterPut i p h).lists j).freeBlocks =
      if j = i then ((σ.lists j).freeBlocks + 1) % 2 ^ 64 else (σ.lists j).freeBlocks := by
  rw [afterPut, lists_modifyList]
  split
  · next heq =>
    rw [heq]
    rfl
  · rfl

theorem emptyPools_afterPut (σ : PoolGroup) (i p : Nat) (h : PoolHeader) (j : Nat) :
    ((σ.afterPut i p h).lists j).emptyPools = (σ.lists j).emptyPools := by
  rw [afterPut, lists_modifyList]
  split
  · next heq =>
    rw [heq]
    rfl
  · rfl

theorem linked_afterPut (hσ : Linked σ chain) (i p : Nat) (h : PoolHeader) : Linked (σ.afterPut i p h) chain :=
  linked_modifyList (fun _ => rfl) (show Linked (σ.setHeader p h) chain from hσ)

/-- The pool stays in the group, on the list that it belongs on then. -/
theorem Inv.keep (hσ : Inv σ chain) (hp : p ∈ σ.pools) (hindex : σ.indexOf p = i) (hput : PutBack σ p b h)
    (hheader : τ.header = Function.update σ.header p h) (hpools : τ.pools = σ.pools) (hlive : τ.live = σ.live)
    (hlinked : Linked τ chain') (hbelongs : Belongs h k)
    (hmem : ∀ x q, q ∈ chain' x ↔ q = p ∧ x = (i, k) ∨ q ≠ p ∧ q ∈ chain x)
    (hfree : ∀ j, (τ.lists j).freeBlocks = if j = i then ((σ.lists j).freeBlocks + 1) % 2 ^ 64 else (σ.lists j).freeBlocks)
    (hempty : ∀ j : Fin poolCount, (τ.lists j).emptyPools = (chain' (j, .emptyList)).length) :
    Inv (τ.withLive p ((σ.live p).erase b)) chain' := by
  refine hσ.update (τ := τ.withLive p ((σ.live p).erase b)) hp hlinked ?_ hpools hheader ?_ hput.blockSize hput.blockCount
    hbelongs hput.count hput.held ?_ hempty
  · intro j k'' q
    rw [hmem, Prod.mk.injEq, hindex, Fin.val_inj, eq_comm (a := j)]
  · change Function.update τ.live p _ = _
    rw [hlive]
  · intro j
    have htotal := totalFree_update (τ := τ.withLive p ((σ.live p).erase b)) hp hpools hheader hput.blockSize j
    have hcount := hput.freeCount
    have hnew : (τ.withLive p ((σ.live p).erase b)).totalFree j < 2 ^ 64 := by
      apply (totalFree_le _ j).trans_lt
      · exact (totalBlocks_eq hpools hheader hput.blockCount).trans_lt hσ.sound.fits
      · intro q hq
        change (τ.header q).freeCount ≤ (τ.header q).blockCount
        rw [hheader]
        obtain rfl | hne := eq_or_ne q p
        · rw [Function.update_self]
          have := hput.count
          omega
        · rw [Function.update_of_ne hne]
          exact (hσ.freeCount_le (hpools ▸ hq)).1
    change (τ.lists j).freeBlocks = _
    rw [hfree, hσ.freeBlocks]
    rw [hindex] at htotal
    by_cases hj : (j : Nat) = i
    · rw [if_pos hj.symm, if_pos hj.symm] at htotal
      rw [if_pos hj]
      omega
    · rw [if_neg fun heq => hj heq.symm, if_neg fun heq => hj heq.symm] at htotal
      rw [if_neg hj]
      omega

/-- The pool leaves the group. -/
theorem Inv.destroy (hσ : Inv σ chain) (hp : p ∈ σ.pools) (hindex : σ.indexOf p = i) (hput : PutBack σ p b h)
    (hfull : h.freeCount = h.blockCount)
    (hheader : τ.header = Function.update σ.header p h) (hpools : τ.pools = σ.pools.erase p)
    (hlive : τ.live = Function.update σ.live p ((σ.live p).erase b))
    (hlinked : Linked τ chain') (hmem : ∀ x q, q ∈ chain' x ↔ q ≠ p ∧ q ∈ chain x)
    (hfree : ∀ j, (τ.lists j).freeBlocks =
      if j = i then (((σ.lists j).freeBlocks + 1) % 2 ^ 64 + 2 ^ 64 - h.blockCount) % 2 ^ 64 else (σ.lists j).freeBlocks)
    (hempty : ∀ j : Fin poolCount, (τ.lists j).emptyPools = (chain' (j, .emptyList)).length) : Inv τ chain' := by
  have hother : ∀ q, q ≠ p → τ.header q = σ.header q := fun q hq => by rw [hheader, Function.update_of_ne hq]
  have hlother : ∀ q, q ≠ p → τ.live q = σ.live q := fun q hq => by rw [hlive, Function.update_of_ne hq]
  have hindex' : ∀ q, q ≠ p → τ.indexOf q = σ.indexOf q := fun q hq => by rw [indexOf, indexOf, hother q hq]
  have hold : ∀ q ∈ τ.pools, q ≠ p ∧ q ∈ σ.pools := fun q hq => Finset.mem_erase.mp (hpools ▸ hq)
  refine ⟨⟨?_, ?_, ?_⟩, hlinked, ?_, ?_, hempty, ?_, ?_⟩
  · intro q hq
    obtain ⟨hne, hq⟩ := hold q hq
    rw [hindex' q hne]
    exact hσ.sound.index q hq
  · apply lt_of_le_of_lt _ hσ.sound.fits
    rw [hpools]
    calc ∑ q ∈ σ.pools.erase p, (τ.header q).blockCount = ∑ q ∈ σ.pools.erase p, (σ.header q).blockCount := by
          apply Finset.sum_congr rfl
          intro q hq
          rw [hother q (Finset.ne_of_mem_erase hq)]
      _ ≤ ∑ q ∈ σ.pools, (σ.header q).blockCount := Finset.sum_le_sum_of_subset (Finset.erase_subset _ _)
  · intro q hq c hc
    obtain ⟨hne, hq⟩ := hold q hq
    rw [hother q hne]
    exact hσ.sound.held q hq c (hlother q hne ▸ hc)
  · intro j k'' q
    rw [hmem, hpools, Finset.mem_erase, hσ.mem, and_assoc]
    refine and_congr_right fun hne => ?_
    rw [hother q hne, hindex' q hne]
  · intro j
    have htotal : τ.totalFree j + (if σ.indexOf p = j then (σ.header p).freeCount else 0) = σ.totalFree j := by
      rw [totalFree, totalFree, hpools]
      simp only [Finset.sum_filter]
      rw [← Finset.add_sum_erase _ _ hp, add_comm]
      congr 1
      apply Finset.sum_congr rfl
      intro q hq
      rw [hother q (Finset.ne_of_mem_erase hq), hindex' q (Finset.ne_of_mem_erase hq)]
    have hbound := (totalFree_le (fun q hq => (hσ.freeCount_le hq).1) j).trans_lt hσ.sound.fits
    have hcount := hput.freeCount
    have hblocks := hput.blockCount
    have hlt := (hσ.freeCount_le hp).2
    rw [hfree, hσ.freeBlocks]
    rw [hindex] at htotal
    by_cases hj : (j : Nat) = i
    · rw [if_pos hj.symm] at htotal
      rw [if_pos hj]
      omega
    · rw [if_neg fun heq => hj heq.symm] at htotal
      rw [if_neg hj]
      omega
  · intro q hq
    obtain ⟨hne, hq⟩ := hold q hq
    rw [hother q hne, hlother q hne]
    exact hσ.counts q hq
  · intro q hq
    obtain ⟨hne, hq⟩ := hold q hq
    rw [hother q hne]
    exact hσ.pos q hq

/-- The pool was full. -/
theorem Inv.freeToPartial (hσ : Inv σ chain) (hp : p ∈ σ.pools) (hindex : σ.indexOf p = i) (hput : PutBack σ p b h)
    (hone : h.freeCount = 1) (hmany : h.blockCount ≠ 1) :
    ∃ chain', Inv ((((σ.afterPut i p h).removeFrom i .fullList p).insertInto i .partialList p).withLive p
      ((σ.live p).erase b)) chain' := by
  have hcount := hput.count
  have hfreeCount := hput.freeCount
  have hlinked := linked_afterPut hσ.linked i p h
  have hmem : p ∈ chain (i, .fullList) := (hσ.mem i _ p).mpr ⟨hp, hindex, show _ = 0 by omega⟩
  have hsame := same_move (σ.afterPut i p h) i .fullList .partialList p
  refine ⟨_, hσ.keep (k := .partialList) hp hindex hput hsame.header hsame.pools hsame.live
    (linked_move hlinked hmem (by decide)) ⟨by omega, by omega⟩ ?_ ?_ ?_⟩
  · exact fun x q => mem_moved hlinked hmem (by decide) x
  · intro j
    rw [hsame.freeBlocks, freeBlocks_afterPut]
  · intro j
    rw [hsame.emptyPools, emptyPools_afterPut, hσ.emptyPools, moved_of_ne (by simp) (by simp)]

/-- The pool has other blocks in use, and had free ones. -/
theorem Inv.freeWithinPartial (hσ : Inv σ chain) (hp : p ∈ σ.pools) (hindex : σ.indexOf p = i) (hput : PutBack σ p b h)
    (hone : h.freeCount ≠ 1) (hempty : h.freeCount ≠ h.blockCount) :
    Inv ((σ.afterPut i p h).withLive p ((σ.live p).erase b)) chain := by
  have hcount := hput.count
  have hfreeCount := hput.freeCount
  have hblocks := hput.blockCount
  have hmem : p ∈ chain (i, .partialList) := (hσ.mem i _ p).mpr ⟨hp, hindex, by omega, by omega⟩
  refine hσ.keep (k := .partialList) hp hindex hput rfl rfl rfl (linked_afterPut hσ.linked i p h) ⟨by omega, by omega⟩
    ?_ ?_ ?_
  · intro x q
    by_cases hq : q = p
    · subst hq
      simp only [true_and, ne_eq, not_true_eq_false, false_and, or_false]
      exact ⟨fun hx => hσ.linked.disjoint x _ q hx hmem, fun hx => hx ▸ hmem⟩
    · simp [hq]
  · intro j
    rw [freeBlocks_afterPut]
  · intro j
    rw [emptyPools_afterPut, hσ.emptyPools]

/-- The last block in use of a pool that is kept. -/
theorem Inv.freeToEmpty (hσ : Inv σ chain) (hp : p ∈ σ.pools) (hindex : σ.indexOf p = i) (hput : PutBack σ p b h)
    (hone : h.freeCount ≠ 1) (hempty : h.freeCount = h.blockCount) :
    ∃ chain', Inv ((((((σ.afterPut i p h).removeFrom i .partialList p).insertInto i .emptyList p).modifyList i fun l =>
      { l with emptyPools := (l.emptyPools + 1) % 2 ^ 64 })).withLive p ((σ.live p).erase b)) chain' := by
  have hcount := hput.count
  have hfreeCount := hput.freeCount
  have hblocks := hput.blockCount
  have hlinked := linked_afterPut hσ.linked i p h
  have hmem : p ∈ chain (i, .partialList) := (hσ.mem i _ p).mpr ⟨hp, hindex, by omega, by omega⟩
  have hnot : p ∉ chain (i, .emptyList) := by
    intro hmem'
    exact absurd (hσ.linked.disjoint _ _ p hmem hmem') (by simp)
  have hsame := same_move (σ.afterPut i p h) i .partialList .emptyList p
  have hlength : (chain (i, .emptyList)).length + 1 < 2 ^ 64 := by
    have hsub : insert p (chain (i, .emptyList)).toFinset ⊆ σ.pools := by
      intro q hq
      obtain rfl | hq := Finset.mem_insert.mp hq
      · exact hp
      · exact ((hσ.mem _ _ q).mp (List.mem_toFinset.mp hq)).1
    have hcard := Finset.card_le_card hsub
    rw [Finset.card_insert_of_notMem (by rwa [List.mem_toFinset]),
      List.toFinset_card_of_nodup (hσ.linked.nodup _)] at hcard
    exact (hcard.trans hσ.card_le).trans_lt hσ.sound.fits
  refine ⟨_, hσ.keep (k := .emptyList) hp hindex hput hsame.header hsame.pools hsame.live
    (linked_modifyList (fun _ => rfl) (linked_move hlinked hmem (by decide))) hempty ?_ ?_ ?_⟩
  · exact fun x q => mem_moved hlinked hmem (by decide) x
  · intro j
    rw [lists_modifyList]
    split
    · next heq => rw [hsame.freeBlocks, freeBlocks_afterPut, if_pos rfl, heq]
    · next hne => rw [hsame.freeBlocks, freeBlocks_afterPut, if_neg hne]
  · intro j
    rw [lists_modifyList]
    obtain rfl | hj := eq_or_ne j i
    · rw [if_pos rfl]
      dsimp only
      rw [hsame.emptyPools, emptyPools_afterPut, hσ.emptyPools, moved, Function.update_self, List.length_cons,
        Nat.mod_eq_of_lt hlength]
    · rw [if_neg (fun heq => hj (Fin.ext heq)), hsame.emptyPools, emptyPools_afterPut, hσ.emptyPools,
        moved_of_ne (fun heq => hj (congrArg Prod.fst heq)) (fun heq => hj (congrArg Prod.fst heq))]

theorem lists_destroyPool (σ : PoolGroup) (p : Nat) : (σ.destroyPool p).lists = σ.lists := rfl

/-- The last block in use of a pool that is not kept. -/
theorem Inv.freeToNone (hσ : Inv σ chain) (hp : p ∈ σ.pools) (hindex : σ.indexOf p = i) (hput : PutBack σ p b h)
    (hone : h.freeCount ≠ 1) (hempty : h.freeCount = h.blockCount) :
    ∃ chain', Inv (((((σ.afterPut i p h).removeFrom i .partialList p).destroyPool p).modifyList i fun l =>
      { l with
        freeBlocks := (l.freeBlocks + 2 ^ 64 - h.blockCount) % 2 ^ 64
        totalBlocks := (l.totalBlocks + 2 ^ 64 - h.blockCount) % 2 ^ 64 }).withLive p ((σ.live p).erase b)) chain' := by
  have hcount := hput.count
  have hfreeCount := hput.freeCount
  have hblocks := hput.blockCount
  have hmem : p ∈ chain (i, .partialList) := (hσ.mem i _ p).mpr ⟨hp, hindex, by omega, by omega⟩
  have hsame := same_removeFrom (σ.afterPut i p h) i .partialList p
  have hlinked : Linked (((σ.afterPut i p h).removeFrom i .partialList p).destroyPool p)
      (Function.update chain (i, .partialList) ((chain (i, .partialList)).erase p)) :=
    linked_removeFrom (linked_afterPut hσ.linked i p h) hmem
  refine ⟨Function.update chain (i, .partialList) ((chain (i, .partialList)).erase p),
    hσ.destroy hp hindex hput hempty hsame.header ?_ ?_ ?_ ?_ ?_ ?_⟩
  · change (((σ.afterPut i p h).removeFrom i .partialList p)).pools.erase p = _
    rw [hsame.pools]
    rfl
  · change Function.update (((σ.afterPut i p h).removeFrom i .partialList p)).live p _ = _
    rw [hsame.live]
    rfl
  · apply linked_withLive
    apply linked_modifyList _ hlinked
    intro l
    rfl
  · intro x q
    obtain rfl | hx := eq_or_ne x (i, .partialList)
    · rw [Function.update_self, (hσ.linked.nodup _).mem_erase_iff]
    · rw [Function.update_of_ne hx]
      have hne : q ∈ chain x → q ≠ p := by
        rintro hq rfl
        exact hx (hσ.linked.disjoint x _ q hq hmem)
      exact ⟨fun hq => ⟨hne hq, hq⟩, And.right⟩
  · intro j
    rw [lists_withLive, lists_modifyList]
    split
    · next heq =>
      dsimp only
      rw [lists_destroyPool, hsame.freeBlocks, freeBlocks_afterPut, if_pos rfl, heq]
    · next hne => rw [lists_destroyPool, hsame.freeBlocks, freeBlocks_afterPut, if_neg hne]
  · intro j
    have hj : (((σ.afterPut i p h).removeFrom i .partialList p).lists j).emptyPools = (chain (j, .emptyList)).length := by
      rw [hsame.emptyPools, emptyPools_afterPut, hσ.emptyPools]
    rw [lists_withLive, lists_modifyList, Function.update_of_ne (by simp), ← hj]
    split
    · next heq => rw [heq, lists_destroyPool]
    · rw [lists_destroyPool]

theorem freeBlockInPool_eq (hindex : σ.indexOf p = i) (keep : Bool) :
    σ.freeBlockInPool b p keep =
      let h := (σ.header p).free b
      if h.freeCount = 1 then ((σ.afterPut i p h).removeFrom i .fullList p).insertInto i .partialList p
      else if h.freeCount = h.blockCount then
        if keep then
          (((σ.afterPut i p h).removeFrom i .partialList p).insertInto i .emptyList p).modifyList i fun l =>
            { l with emptyPools := (l.emptyPools + 1) % 2 ^ 64 }
        else
          (((σ.afterPut i p h).removeFrom i .partialList p).destroyPool p).modifyList i fun l =>
            { l with
              freeBlocks := (l.freeBlocks + 2 ^ 64 - h.blockCount) % 2 ^ 64
              totalBlocks := (l.totalBlocks + 2 ^ 64 - h.blockCount) % 2 ^ 64 }
      else σ.afterPut i p h := by
  rw [freeBlockInPool, ← hindex]
  rfl

theorem Inv.freeBlock (hσ : Inv σ chain) (hp : p ∈ σ.pools) (hb : b ∈ σ.live p) (hmany : (σ.header p).blockCount ≠ 1)
    (keep : Bool) : ∃ chain', Inv ((σ.freeBlockInPool b p keep).withLive p ((σ.live p).erase b)) chain' := by
  obtain ⟨i, hindex⟩ : ∃ i : Fin poolCount, σ.indexOf p = i := ⟨⟨_, hσ.sound.index p hp⟩, rfl⟩
  have hput := hσ.putBack hp hb
  rw [← hput.blockCount] at hmany
  rw [freeBlockInPool_eq hindex]
  dsimp only
  split
  · next hone => exact hσ.freeToPartial hp hindex hput hone hmany
  · next hone =>
    split
    · next hempty =>
      split
      · exact hσ.freeToEmpty hp hindex hput hone hempty
      · exact hσ.freeToNone hp hindex hput hone hempty
    · next hempty => exact ⟨chain, hσ.freeWithinPartial hp hindex hput hone hempty⟩

end XviOs.Pool.PoolGroup
