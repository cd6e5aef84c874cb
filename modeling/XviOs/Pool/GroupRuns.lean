import Mathlib.Tactic
import XviOs.Library.Runs
import XviOs.Pool.GroupFree

namespace XviOs.Pool.PoolGroup

open Library.Runs Library.Bitmap

inductive Call
  | allocate (i : Nat)
  | free (p b : Nat) (keep : Bool)

def step (σ : PoolGroup) : Call → Option PoolGroup
  | .allocate i =>
    let r := σ.allocateFromPoolList i
    some (if r.1 = 0 then r.2 else r.2.withLive (σ.candidate i) (insert r.1 (r.2.live (σ.candidate i))))
  | .free p b keep => some ((σ.freeBlockInPool b p keep).withLive p ((σ.live p).erase b))

/-- The list is there, and a block is freed by a client that holds it. -/
def Allowed (σ : PoolGroup) : Call → Prop
  | .allocate i => i < poolCount
  | .free p b _ => p ∈ σ.pools ∧ b ∈ σ.live p

/-- An empty pool that is taken has a clear bit, and no block of a pool of one block is freed. -/
def Proper (σ : PoolGroup) : Call → Prop
  | .allocate i => (σ.lists i).list .partialList = 0 → (σ.lists i).list .emptyList ≠ 0 →
      ∃ j < (σ.header ((σ.lists i).list .emptyList)).blockCount,
        bit (σ.header ((σ.lists i).list .emptyList)).bitmap j = false
  | .free p _ _ => (σ.header p).blockCount ≠ 1

variable {σ τ : PoolGroup} {chain : Fin poolCount × Kind → List Nat} {cs : List Call} {c : Call}

theorem Inv.step_allocate (hσ : Inv σ chain) (i : Fin poolCount) (hproper : Proper σ (.allocate i))
    (hs : step σ (.allocate i) = some τ) : ∃ chain', Inv τ chain' := by
  obtain rfl := Option.some_inj.mp hs
  by_cases hcand : σ.candidate i = 0
  · refine ⟨chain, ?_⟩
    rw [allocateFromPoolList, if_pos hcand]
    exact hσ
  obtain ⟨chain', htaken⟩ := hσ.takeEmpty hcand
  have hmem := hσ.candidate_mem hcand
  obtain ⟨hp, hindex, -⟩ := (hσ.mem i _ _).mp hmem
  rw [allocateFromPoolList_eq hcand, htaken.header]
  obtain ⟨hnull, hset⟩ | ⟨b, h, halloc, hfrom⟩ := hσ.allocate_header hp
  · rw [hnull]
    dsimp only
    rw [if_pos rfl, if_pos rfl]
    -- a pool with no clear bit is one of the partial list
    have hpart : ¬ (σ.lists i).list .partialList = 0 := by
      intro hzero
      have heq : σ.candidate i = (σ.lists i).list .emptyList := if_pos hzero
      obtain ⟨j, hj, hclear⟩ := hproper hzero (heq ▸ hcand)
      rw [heq] at hset
      exact absurd ((hset j hj).symm.trans hclear) (by decide)
    refine ⟨chain, ?_⟩
    rw [PoolGroup.takeEmpty, if_neg hpart]
    exact hσ
  · obtain ⟨chain'', hinv⟩ := hσ.afterTake hp hindex htaken hfrom
    refine ⟨chain'', ?_⟩
    rw [halloc]
    dsimp only
    rw [if_neg hfrom.ne_zero, if_neg hfrom.ne_zero]
    have hlive : ((σ.takeEmpty i).afterTake i (σ.candidate i) h).live = σ.live :=
      (same_afterTake _ _ _ _).live.trans htaken.live
    rw [hlive]
    exact hinv

theorem Inv.step (hσ : Inv σ chain) (hc : Allowed σ c) (hproper : Proper σ c) (hs : step σ c = some τ) :
    ∃ chain', Inv τ chain' := by
  cases c with
  | allocate i => exact hσ.step_allocate ⟨i, hc⟩ hproper hs
  | free p b keep =>
    obtain rfl := Option.some_inj.mp hs
    exact hσ.freeBlock hc.1 hc.2 hproper keep

/-- A pool that is the first of the partial list has a free block and a block in use. -/
theorem Right.partial_head {p : Nat} (hτ : Right τ) {i : Fin poolCount} (hhead : τ.heads (i, .partialList) = p)
    (hp : p ≠ 0) : (τ.header p).freeCount < (τ.header p).blockCount :=
  (hτ.belongs_head (k := .partialList) hhead hp).2

/-- A pool of one block goes from the full to the partial list. -/
theorem Inv.not_right_of_free {p b : Nat} {keep : Bool} (hσ : Inv σ chain) (hp : p ∈ σ.pools) (hb : b ∈ σ.live p)
    (hone : (σ.header p).blockCount = 1) (hs : PoolGroup.step σ (.free p b keep) = some τ) : ¬ Right τ := by
  intro hτ
  obtain rfl := Option.some_inj.mp hs
  obtain ⟨i, hindex⟩ : ∃ i : Fin poolCount, σ.indexOf p = i := ⟨⟨_, hσ.sound.index p hp⟩, rfl⟩
  have hput := hσ.putBack hp hb
  have hcount := hput.count
  have hfreeCount := hput.freeCount
  have hblocks := hput.blockCount
  have hfree : ((σ.header p).free b).freeCount = 1 := by omega
  obtain ⟨k, hk⟩ := exists_belongs (h := σ.header p) (by omega)
  have hne : p ≠ 0 := hσ.linked.ne_null ((hσ.mem i k p).mpr ⟨hp, hindex, hk⟩)
  rw [freeBlockInPool_eq hindex] at hτ
  dsimp only at hτ
  rw [if_pos hfree] at hτ
  have hhead : (((σ.afterPut i p ((σ.header p).free b)).removeFrom i .fullList p).insertInto i .partialList p).heads
      (i, .partialList) = p := by
    rw [heads_insertInto, Function.update_self]
  have hsame := same_move (σ.afterPut i p ((σ.header p).free b)) i .fullList .partialList p
  have hlt := hτ.partial_head hhead hne
  have hheader : (((σ.afterPut i p ((σ.header p).free b)).removeFrom i .fullList p).insertInto i .partialList p).header p =
      (σ.header p).free b := by
    rw [hsame.header]
    exact Function.update_self _ _ _
  change PoolHeader.freeCount (PoolGroup.header _ p) < PoolHeader.blockCount (PoolGroup.header _ p) at hlt
  rw [show ∀ (ρ : PoolGroup) l, (ρ.withLive p l).header = ρ.header from fun _ _ => rfl, hheader] at hlt
  omega

/-- An empty pool without a clear bit stays on the partial list. -/
theorem Inv.not_right_of_allocate (hσ : Inv σ chain) (i : Fin poolCount) (hproper : ¬ Proper σ (.allocate i))
    (hs : PoolGroup.step σ (.allocate i) = some τ) : ¬ Right τ := by
  intro hτ
  obtain rfl := Option.some_inj.mp hs
  simp only [Proper, Classical.not_imp, not_exists, not_and, Bool.not_eq_false] at hproper
  obtain ⟨hpart, hempty, hset⟩ := hproper
  have hcand : σ.candidate i = (σ.lists i).list .emptyList := if_pos hpart
  have hne : σ.candidate i ≠ 0 := hcand ▸ hempty
  obtain ⟨chain', htaken⟩ := hσ.takeEmpty hne
  have hmem := hσ.candidate_mem hne
  rw [if_pos hpart] at hmem
  obtain ⟨hp, hindex, hbelongs⟩ := (hσ.mem i _ _).mp hmem
  obtain ⟨hnull, -⟩ | ⟨j, h, hj, hclear, -⟩ := (σ.header (σ.candidate i)).allocate_cases
  · rw [allocateFromPoolList_eq hne, htaken.header, hnull] at hτ
    dsimp only at hτ
    rw [if_pos rfl, if_pos rfl] at hτ
    have hhead : (σ.takeEmpty i).heads (i, .partialList) = σ.candidate i := by
      rw [PoolGroup.takeEmpty, if_pos hpart, heads_modifyList (by intro l; rfl), heads_insertInto, Function.update_self]
    have hlt := hτ.partial_head hhead hne
    rw [htaken.header] at hlt
    have heq : (σ.header (σ.candidate i)).freeCount = (σ.header (σ.candidate i)).blockCount := hbelongs
    omega
  · rw [hcand] at hj hclear
    exact absurd ((hset j hj).symm.trans hclear) (by decide)

theorem exists_step (σ : PoolGroup) (c : Call) : ∃ τ, step σ c = some τ := by
  cases c with
  | allocate i => exact ⟨_, rfl⟩
  | free p b keep => exact ⟨_, rfl⟩

theorem Inv.not_right (hσ : Inv σ chain) (hc : Allowed σ c) (hproper : ¬ Proper σ c) (hs : PoolGroup.step σ c = some τ) :
    ¬ Right τ := by
  cases c with
  | allocate i => exact hσ.not_right_of_allocate ⟨i, hc⟩ hproper hs
  | free p b keep => exact hσ.not_right_of_free hc.1 hc.2 (not_not.mp hproper) hs

theorem inv_run_of_proper (hσ : Inv σ chain) (hr : Execution step Allowed σ cs τ)
    (hproper : ∀ ds c υ, ds ++ [c] <+: cs → Execution step Allowed σ ds υ → Allowed υ c → Proper υ c) :
    ∃ chain', Inv τ chain' := by
  induction hr with
  | nil => exact ⟨chain, hσ⟩
  | @snoc cs t u c hr hc hs ih =>
    obtain ⟨chain', ht⟩ := ih fun ds d υ hds => hproper ds d υ (hds.trans (List.prefix_append cs [c]))
    exact ht.step hc (hproper cs c t (List.prefix_refl _) hr hc) hs

theorem inv_run_of_right (hσ : Inv σ chain) (hr : Execution step Allowed σ cs τ)
    (hright : ∀ ds υ, ds <+: cs → Execution step Allowed σ ds υ → Right υ) : ∃ chain', Inv τ chain' := by
  induction hr with
  | nil => exact ⟨chain, hσ⟩
  | @snoc cs t u c hr hc hs ih =>
    obtain ⟨chain', ht⟩ := ih fun ds υ hds => hright ds υ (hds.trans (List.prefix_append cs [c]))
    by_cases hproper : Proper t c
    · exact ht.step hc hproper hs
    · exact absurd (hright (cs ++ [c]) u (List.prefix_refl _) (.snoc hr hc hs)) (ht.not_right hc hproper hs)

/-- The lists and the counters are right after every step of a run if and only if every step is proper. -/
theorem right_iff_proper (hσ : Right σ) (hsound : Sound σ) (cs : List Call) :
    (∀ ds υ, ds <+: cs → Execution step Allowed σ ds υ → Right υ) ↔
      ∀ ds c υ, ds ++ [c] <+: cs → Execution step Allowed σ ds υ → Allowed υ c → Proper υ c := by
  obtain ⟨chain, hinv⟩ := hσ.inv hsound
  constructor
  · intro hright ds c υ hds hυ hc
    by_contra hproper
    obtain ⟨chain', hinv'⟩ := inv_run_of_right hinv hυ fun es ρ hes =>
      hright es ρ (hes.trans ((List.prefix_append ds [c]).trans hds))
    obtain ⟨ρ, hρ⟩ := exists_step υ c
    exact hinv'.not_right hc hproper hρ (hright (ds ++ [c]) ρ hds (.snoc hυ hc hρ))
  · intro hproper ds υ hds hυ
    obtain ⟨chain', hinv'⟩ := inv_run_of_proper hinv hυ fun es c ρ hes => hproper es c ρ (hes.trans hds)
    exact hinv'.right

/-- A group with a single pool, none of whose blocks is in use. -/
def single (h : PoolHeader) (p : Nat) : PoolGroup where
  lists i :=
    if i = poolIndex h.blockSize then ⟨fun k => if k = .emptyList then p else 0, h.blockCount, h.blockCount, 1⟩
    else ⟨fun _ => 0, 0, 0, 0⟩
  header _ := h
  nextHeader _ := 0
  prevHeader _ := 0
  pools := {p}
  live _ := ∅

variable {h : PoolHeader} {p : Nat}

theorem single_lists (h : PoolHeader) (p i : Nat) : (single h p).lists i =
    if i = poolIndex h.blockSize then ⟨fun k => if k = .emptyList then p else 0, h.blockCount, h.blockCount, 1⟩
    else ⟨fun _ => 0, 0, 0, 0⟩ := rfl

theorem single_right (hp : p ≠ 0) (hfree : h.freeCount = h.blockCount) (hpos : 0 < h.blockCount) :
    Right (single h p) := by
  have hempty : Belongs h .emptyList := hfree
  have hpools : (single h p).pools = {p} := rfl
  have hsame : ∀ q i, (single h p).indexOf q = i ↔ i = poolIndex h.blockSize := fun q i => eq_comm
  refine ⟨?_, ?_, ?_, ?_, ?_⟩
  · intro q hq
    exact hfree
  · intro q hq
    exact ⟨.emptyList, hempty, fun k hk => belongs_unique hpos hk hempty⟩
  · intro i hi k
    by_cases hk : i = poolIndex h.blockSize ∧ k = .emptyList
    · obtain ⟨rfl, rfl⟩ := hk
      refine ⟨[p], ?_, List.nodup_singleton p, ?_⟩
      · have hhead : ((single h p).lists (poolIndex h.blockSize)).list .emptyList = p := by
          simp [single]
        rw [hhead]
        exact ⟨rfl, hp, rfl, rfl⟩
      · intro q
        rw [List.mem_singleton]
        constructor
        · rintro rfl
          exact ⟨Finset.mem_singleton_self q, rfl, hempty⟩
        · exact fun hq => Finset.mem_singleton.mp hq.1
    · refine ⟨[], ?_, List.nodup_nil, ?_⟩
      · change ((single h p).lists i).list k = 0
        rw [single]
        dsimp only
        by_cases hi : i = poolIndex h.blockSize
        · rw [if_pos hi]
          exact if_neg fun heq => hk ⟨hi, heq⟩
        · rw [if_neg hi]
      · intro q
        refine iff_of_false (by simp) ?_
        rintro ⟨-, hq, hbelongs⟩
        exact hk ⟨(hsame q i).mp hq, belongs_unique hpos hbelongs hempty⟩
  · intro i hi
    rw [totalFree, Finset.sum_filter, hpools, Finset.sum_singleton, single_lists]
    by_cases hi' : i = poolIndex h.blockSize
    · rw [if_pos hi', if_pos ((hsame p i).mpr hi')]
      exact hfree.symm
    · rw [if_neg hi', if_neg fun heq => hi' ((hsame p i).mp heq)]
  · intro i hi
    rw [totalEmpty, hpools, Finset.filter_singleton, single_lists]
    by_cases hi' : i = poolIndex h.blockSize
    · rw [if_pos hi', if_pos ⟨(hsame p i).mpr hi', hfree⟩, Finset.card_singleton]
    · rw [if_neg hi', if_neg fun heq => hi' ((hsame p i).mp heq.1), Finset.card_empty]

theorem single_sound (hindex : poolIndex h.blockSize < poolCount) : Sound (single h p) := by
  refine ⟨fun q hq => hindex, ?_, fun q hq b hb => absurd hb (Finset.notMem_empty b)⟩
  rw [show (single h p).pools = {p} from rfl, Finset.sum_singleton]
  have hfits := h.fits
  have hsize := Nat.le_mul_of_pos_right h.blockCount h.blockSize_pos
  have hpool := h.pool_pos
  change h.blockCount < 2 ^ 64
  omega

/-- A pool of `n` blocks of 64 bytes, none of them in use. -/
def blocks (n : Nat) (hn : n ≤ 64) : PoolHeader where
  blockSize := 64
  blockCount := n
  pool := 4096
  bitmap := [0]
  freeCount := n
  blockSize_pos := Nat.succ_pos 63
  pool_pos := Nat.succ_pos 4095
  blockCount_le := hn
  fits := by
    rw [List.length_singleton]
    omega

theorem blocks_proper (n : Nat) (hn : n ≤ 64) (hpos : 0 < n) (p : Nat) :
    Proper (single (blocks n hn) p) (.allocate 8) := by
  intro hpart hempty
  refine ⟨0, hpos, ?_⟩
  change bit ([0] : List (BitVec 64)) 0 = false
  decide

/-- A block is allocated from a pool of two. -/
theorem right_two :
    ∃ τ, Execution step Allowed (single (blocks 2 (by decide)) 8192) [.allocate 8] τ ∧ Right τ := by
  have hright : Right (single (blocks 2 (by decide)) 8192) := single_right (by decide) rfl (by decide)
  obtain ⟨τ, hτ⟩ := exists_step (single (blocks 2 (by decide)) 8192) (.allocate 8)
  have hrun : Execution step Allowed (single (blocks 2 (by decide)) 8192) ([] ++ [.allocate 8]) τ :=
    .snoc .nil (show 8 < 40 by decide) hτ
  refine ⟨τ, hrun, (right_iff_proper hright (single_sound (by decide)) [.allocate 8]).mpr ?_ _ τ (List.prefix_refl _) hrun⟩
  intro ds c υ hds hυ hc
  cases ds with
  | nil =>
    obtain rfl : c = .allocate 8 := by simpa using hds
    rw [hυ.nil_eq rfl]
    exact blocks_proper 2 _ (by decide) 8192
  | cons d ds =>
    have hlen := hds.length_le
    simp at hlen

/-- The block of a pool of one is allocated and freed. -/
theorem not_right_one :
    ¬ ∀ σ cs τ, Right σ → Sound σ → Execution step Allowed σ cs τ → Right τ := by
  intro hall
  have hright : Right (single (blocks 1 (by decide)) 8192) := single_right (by decide) rfl (by decide)
  have hsound : Sound (single (blocks 1 (by decide)) 8192) := single_sound (by decide)
  obtain ⟨chain, hinv⟩ := hright.inv hsound
  obtain ⟨υ, hυ⟩ := exists_step (single (blocks 1 (by decide)) 8192) (.allocate 8)
  obtain ⟨τ, hτ⟩ := exists_step υ (.free 8192 4096 true)
  have hpools : (PoolGroup.step (single (blocks 1 (by decide)) 8192) (.allocate 8)).map PoolGroup.pools = some {8192} := by
    decide +kernel
  have hlive : (PoolGroup.step (single (blocks 1 (by decide)) 8192) (.allocate 8)).map (fun υ => υ.live 8192) =
      some {4096} := by
    decide +kernel
  have hcount : (PoolGroup.step (single (blocks 1 (by decide)) 8192) (.allocate 8)).map
      (fun υ => (υ.header 8192).blockCount) = some 1 := by
    decide +kernel
  rw [hυ, Option.map_some, Option.some_inj] at hpools hlive hcount
  have hp : 8192 ∈ υ.pools := hpools ▸ Finset.mem_singleton_self _
  have hb : 4096 ∈ υ.live 8192 := hlive ▸ Finset.mem_singleton_self _
  have hrun : Execution step Allowed (single (blocks 1 (by decide)) 8192) ([] ++ [.allocate 8]) υ :=
    .snoc .nil (show 8 < 40 by decide) hυ
  have hfree : Allowed υ (.free 8192 4096 true) := ⟨hp, hb⟩
  obtain ⟨chain', hinv'⟩ := hinv.step_allocate ⟨8, by decide⟩ (blocks_proper 1 _ (by decide) 8192) hυ
  exact hinv'.not_right_of_free hp hb hcount hτ (hall _ _ _ hright hsound (.snoc hrun hfree hτ))

end XviOs.Pool.PoolGroup
