import XviOs.Library.Runs
import XviOs.Pool.Header

namespace XviOs.Pool

open Library.Runs Library.Bitmap PoolHeader

/-- The calls of a pool's clients. -/
inductive Call
  | allocate
  | free (block : Nat)
  deriving DecidableEq

/-- A pool together with the blocks that its clients hold. -/
structure Session where
  header : PoolHeader
  live : Finset Nat

/-- The blocks that `n` calls of `allocate` return. -/
def PoolHeader.allocations : Nat → PoolHeader → List Nat
  | 0, _ => []
  | n + 1, h => h.allocate.1 :: allocations n h.allocate.2

def PoolHeader.FreeCountRight (h : PoolHeader) : Prop := h.freeCount = clearBits h.bitmap h.blockCount

namespace Session

def step (σ : Session) : Call → Option Session
  | .allocate =>
    let (block, header) := σ.header.allocate
    some ⟨header, if block = 0 then σ.live else insert block σ.live⟩
  | .free block => some ⟨σ.header.free block, σ.live.erase block⟩

/-- Only live blocks are freed. -/
def Allowed (σ : Session) : Call → Prop
  | .allocate => True
  | .free block => block ∈ σ.live

/-- The bits tell the live blocks, and the free count is right. -/
structure Consistent (σ : Session) : Prop where
  freeCount : σ.header.FreeCountRight
  live : ∀ b, b ∈ σ.live ↔ ∃ i < σ.header.blockCount, bit σ.header.bitmap i = true ∧ σ.header.indexToBlock i = b

/-- What a call that leads from `σ` to `τ` owes its client. -/
def Sound (σ τ : Session) : Call → Prop
  | .allocate => τ.header.FreeCountRight ∧ (σ.header.allocate.1 ≠ 0 → σ.header.allocate.1 ∉ σ.live) ∧
      (σ.header.allocate.1 = 0 → ∀ i < σ.header.blockCount, σ.header.indexToBlock i ∈ σ.live)
  | .free block => τ.header.FreeCountRight ∧ ∃ n, block ∈ PoolHeader.allocations n τ.header

variable {σ τ υ : Session} {cs : List Call}

theorem indexToBlock_inj {h : PoolHeader} {i j : Nat} (hi : i < h.blockCount) (hj : j < h.blockCount)
    (he : h.indexToBlock i = h.indexToBlock j) : i = j := by
  rw [← blockToIndex_indexToBlock hi, he, blockToIndex_indexToBlock hj]

/-- A pool with a block has room to count one block more than it has. -/
theorem blockCount_lt {h : PoolHeader} {i : Nat} (hi : i < h.blockCount) : h.blockCount + 1 < 2 ^ 64 := by
  have hs := Nat.le_mul_of_pos_right h.blockCount h.blockSize_pos
  have hf := h.fits
  have hp := h.pool_pos
  have hb := h.blockCount_le
  omega

theorem step_allocate_null (ha : σ.header.allocate = (0, σ.header)) : step σ .allocate = some σ := by
  simp only [step, ha, if_true]

theorem step_allocate {block : Nat} {h' : PoolHeader} (ha : σ.header.allocate = (block, h')) (hb : block ≠ 0) :
    step σ .allocate = some ⟨h', insert block σ.live⟩ := by
  simp only [step, ha, if_neg hb]

/-- `allocate` takes the block of a clear bit, or leaves a full pool as it is. -/
theorem allocate_step (hσ : σ.Consistent) (hs : step σ .allocate = some τ) :
    τ.Consistent ∧ Sound σ τ .allocate := by
  rcases σ.header.allocate_cases with ⟨ha, hfull⟩ | ⟨k, h', hk, hclear, hbits, hcount, hbc, hbs, hpool, ha⟩
  · obtain rfl := Option.some.inj ((step_allocate_null ha).symm.trans hs)
    refine ⟨hσ, hσ.freeCount, fun hne => absurd (by rw [ha]) hne, fun _ i hi => ?_⟩
    exact (hσ.live _).mpr ⟨i, hi, hfull i hi, rfl⟩
  · obtain rfl := Option.some.inj ((step_allocate ha (indexToBlock_ne_zero hk)).symm.trans hs)
    have hword := index_div_lt hk
    have hright : h'.FreeCountRight := by
      have hdec := clearBits_setBit (by decide) hword hk hclear
      have hle := clearBits_le σ.header.bitmap σ.header.blockCount
      have hlt := blockCount_lt hk
      have h0 : σ.header.freeCount = clearBits σ.header.bitmap σ.header.blockCount := hσ.freeCount
      rw [FreeCountRight, hcount, hbits, hbc, h0]
      omega
    have hindex : ∀ i, h'.indexToBlock i = σ.header.indexToBlock i := by
      intro i
      rw [indexToBlock, hpool, hbs, indexToBlock]
    refine ⟨⟨hright, fun b => ?_⟩, hright, fun _ hlive => ?_, fun h0 => ?_⟩
    · rw [Finset.mem_insert, hσ.live, hbc, hbits]
      simp only [bit_setBit (show 0 < 64 by decide) hword, hindex, Bool.or_eq_true, decide_eq_true_eq]
      constructor
      · rintro (rfl | ⟨i, hi, hbit, he⟩)
        · exact ⟨k, hk, .inl rfl, rfl⟩
        · exact ⟨i, hi, .inr hbit, he⟩
      · rintro ⟨i, hi, rfl | hbit, he⟩
        · exact .inl he.symm
        · exact .inr ⟨i, hi, hbit, he⟩
    · obtain ⟨i, hi, hbit, he⟩ := (hσ.live _).mp hlive
      rw [ha] at he
      rw [indexToBlock_inj hi hk he, hclear] at hbit
      exact absurd hbit (by decide)
    · rw [ha] at h0
      exact absurd h0 (indexToBlock_ne_zero hk)

/-- `free` leaves the bit of the block as it was, and counts the block nevertheless. -/
theorem free_step {block : Nat} (hσ : σ.Consistent) (hb : block ∈ σ.live)
    (hs : step σ (.free block) = some τ) : ¬ τ.header.FreeCountRight := by
  obtain rfl := Option.some.inj hs
  obtain ⟨i, hi, hbit, rfl⟩ := (hσ.live block).mp hb
  have hle := clearBits_le σ.header.bitmap σ.header.blockCount
  have hlt := blockCount_lt hi
  have h0 : σ.header.freeCount = clearBits σ.header.bitmap σ.header.blockCount := hσ.freeCount
  have hfree := free_indexToBlock hi
  rw [FreeCountRight, hfree, mark_bitmap, mark_freeCount, mark_blockCount, h0, ← setBit, setBit_of_bit hbit]
  omega

/-- Runs without a call of `free` keep the pool consistent. -/
theorem consistent_run (hσ : σ.Consistent) (hr : Execution step Allowed σ cs τ) (hno : ∀ b, .free b ∉ cs) :
    τ.Consistent := by
  induction hr with
  | nil => exact hσ
  | @snoc cs t u c hr _ hs ih =>
      have ht := ih fun b hb => hno b (by simp [hb])
      cases c with
      | allocate => exact (allocate_step ht hs).1
      | free b => exact absurd (List.mem_append_right cs (List.mem_singleton.mpr rfl)) (hno b)

theorem no_free_of_sound (hσ : σ.Consistent) (hr : Execution step Allowed σ cs τ)
    (hsound : ∀ ds c t u, ds ++ [c] <+: cs → Execution step Allowed σ ds t → Allowed t c → step t c = some u →
      Sound t u c) : ∀ b, .free b ∉ cs := by
  induction hr with
  | nil => simp
  | @snoc cs t u c hr hc hs ih =>
      have hno := ih fun ds d t u hpre => hsound ds d t u (hpre.trans (List.prefix_append cs [c]))
      have ht := consistent_run hσ hr hno
      have hlast := hsound cs c t u (List.prefix_refl _) hr hc hs
      intro b hb
      rcases List.mem_append.mp hb with hb | hb
      · exact hno b hb
      · obtain rfl := List.mem_singleton.mp hb
        exact free_step ht hc hs hlast.1

/-- Every call of a run is sound if and only if none of them is a call of `free`: the
bit of a freed block is never cleared. -/
theorem sound_iff_no_free (hσ : σ.Consistent) (hr : Execution step Allowed σ cs τ) :
    (∀ ds c t u, ds ++ [c] <+: cs → Execution step Allowed σ ds t → Allowed t c → step t c = some u →
      Sound t u c) ↔ ∀ b, .free b ∉ cs := by
  refine ⟨no_free_of_sound hσ hr, fun hno ds c t u hpre ht hc hs => ?_⟩
  have hsub : ∀ d ∈ ds ++ [c], d ∈ cs := fun d hd => hpre.subset hd
  have hcons := consistent_run hσ ht fun b hb => hno b (hsub _ (by simp [hb]))
  cases c with
  | allocate => exact (allocate_step hcons hs).2
  | free b => exact absurd (hsub _ (by simp)) (hno b)

/-- A pool of two blocks of 64 bytes, none of them in use. -/
def twoBlocks : Session where
  header :=
    { blockSize := 64
      blockCount := 2
      pool := 4096
      bitmap := [0]
      freeCount := 2
      blockSize_pos := by decide
      pool_pos := by decide
      blockCount_le := by decide
      fits := by decide }
  live := ∅

theorem twoBlocks_consistent : twoBlocks.Consistent where
  freeCount := by rfl
  live := by simp [twoBlocks, bit]

theorem sound_iff_no_free_twoBlocks : ∃ τ,
    Execution step Allowed twoBlocks [.allocate] τ ∧
      ∀ ds c t u, ds ++ [c] <+: [.allocate] → Execution step Allowed twoBlocks ds t → Allowed t c →
        step t c = some u → Sound t u c := by
  have hr : Execution step Allowed twoBlocks ([] ++ [.allocate]) _ := .snoc .nil trivial rfl
  exact ⟨_, hr, (sound_iff_no_free twoBlocks_consistent hr).mpr (by simp)⟩

/-- A block is allocated and freed: the free count says two, and one bit is set. -/
theorem free_unsound : twoBlocks.Consistent ∧ ∃ τ υ, Execution step Allowed twoBlocks [.allocate] τ ∧
    Allowed τ (.free 4096) ∧ step τ (.free 4096) = some υ ∧ ¬ Sound τ υ (.free 4096) := by
  have ha : twoBlocks.header.allocate = (4096, twoBlocks.header.mark 0 0 1) := by rfl
  have hr : Execution step Allowed twoBlocks ([] ++ [.allocate]) _ :=
    .snoc .nil trivial (step_allocate ha (by decide))
  have hlive : Allowed ⟨twoBlocks.header.mark 0 0 1, insert 4096 twoBlocks.live⟩ (.free 4096) :=
    Finset.mem_insert_self 4096 _
  have hc := consistent_run twoBlocks_consistent hr (by simp)
  exact ⟨twoBlocks_consistent, _, _, hr, hlive, rfl, fun hs => free_step hc hlive rfl hs.1⟩

end Session

end XviOs.Pool
