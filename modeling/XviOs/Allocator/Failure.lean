import XviOs.Allocator.AllocateSpec
import XviOs.Allocator.ResizeSpec

namespace XviOs.Allocator

open Library.Bits Chunk SizeClass Tile

/-- The two states have the same chunks, with the same contents, and the same bins.
They may differ in the statistics about attempts, searches and failures. -/
structure SameButAttempts (s s' : Arena) : Prop where
  mem : s'.mem = s.mem
  blocks : s'.blocks = s.blocks
  bins : s'.bins = s.bins
  accounting : { s'.accounting with
    allocationFailures := s.accounting.allocationFailures
    resizeAttempts := s.accounting.resizeAttempts } = s.accounting
  binAccounting : ∀ i, { s'.binAccounting i with
    firstSearchCount := (s.binAccounting i).firstSearchCount
    totalSearchCount := (s.binAccounting i).totalSearchCount } = s.binAccounting i

section Failure

variable {gap : Nat → UInt64} {s s' s₁ : Arena} {k : Spot} {post : List Tile} {h : Heap}
  {bins : Nat → List (Nat × Nat)} {t : Tile} {n r c i p need start old : Nat}

namespace SameButAttempts

theorem refl (s : Arena) : SameButAttempts s s := ⟨rfl, rfl, rfl, rfl, fun _ => rfl⟩

theorem trans (h : SameButAttempts s s₁) (h' : SameButAttempts s₁ s') : SameButAttempts s s' where
  mem := h'.mem.trans h.mem
  blocks := h'.blocks.trans h.blocks
  bins := h'.bins.trans h.bins
  accounting := by rw [← h.accounting, ← h'.accounting]
  binAccounting := by
    intro i
    rw [← h.binAccounting, ← h'.binAccounting]

theorem countSearch (s : Arena) (start i : Nat) : SameButAttempts s (s.countSearch start i) where
  mem := rfl
  blocks := rfl
  bins := rfl
  accounting := rfl
  binAccounting := by
    intro j
    simp only [Arena.countSearch]
    by_cases hj : j = i
    · subst hj
      rw [Function.update_self]
      split <;> rfl
    · rw [Function.update_of_ne hj]

theorem allocationFailure (s : Arena) : SameButAttempts s s.allocationFailure.2 := ⟨rfl, rfl, rfl, rfl, fun _ => rfl⟩

theorem recordResizeAttempt (s : Arena) : SameButAttempts s s.recordResizeAttempt :=
  ⟨rfl, rfl, rfl, rfl, fun _ => rfl⟩

end SameButAttempts

/-- A search that finds nothing has looked at the bins, and counted that. -/
theorem searchBins_null (hs : Arena.searchBins start need s i n = some (0, s')) : SameButAttempts s s' := by
  induction n generalizing s i with
  | zero =>
      obtain ⟨-, rfl⟩ := Prod.mk.inj (Option.some.inj hs)
      exact .refl s
  | succ n ih =>
      apply (SameButAttempts.countSearch s start i).trans
      rw [Arena.searchBins] at hs
      by_cases hbin : (s.countSearch start i).bins i = 0
      · rw [if_neg (not_not_intro hbin)] at hs
        exact ih hs
      · rw [if_pos hbin] at hs
        cases hfit : bestFitInList (s.countSearch start i).mem need loopBound ((s.countSearch start i).bins i) with
        | none =>
            rw [hfit] at hs
            cases hs
        | some c =>
            rw [hfit] at hs
            by_cases hc : c = 0
            · subst hc
              exact ih hs
            · change (if c ≠ 0 then _ else _) = _ at hs
              rw [if_pos hc] at hs
              exact absurd (congrArg Prod.fst (Option.some.inj hs)) hc

/-- What `allocate` hands out is not null: the null pointer says that it failed. -/
theorem allocate_null (hs : s.allocate n = some ((0, r), s')) : SameButAttempts s s' := by
  have hbit : hasSingleBit alignment = true := by decide
  rw [Arena.allocate, Arena.allocateAligned] at hs
  by_cases hn : n = 0
  · rw [if_pos hn] at hs
    cases hs
    exact .refl s
  rw [if_neg hn, hbit, if_neg (by decide), if_neg (by decide)] at hs
  by_cases hbig : userSizeToChunkSize n ≥ largestBin
  · rw [if_pos hbig] at hs
    cases hs
    exact .allocationFailure s
  rw [if_neg hbig] at hs
  dsimp only at hs
  cases hsearch : Arena.searchBins (sizeToBinIndex (userSizeToChunkSize n)) (userSizeToChunkSize n) s
      (sizeToBinIndex (userSizeToChunkSize n)) (binCount - sizeToBinIndex (userSizeToChunkSize n)) with
  | none =>
      rw [hsearch] at hs
      cases hs
  | some found =>
      obtain ⟨c, s₁⟩ := found
      rw [hsearch] at hs
      change (if c = 0 then _ else _) = _ at hs
      by_cases hc : c = 0
      · subst hc
        rw [if_pos rfl] at hs
        cases hs
        exact (searchBins_null hsearch).trans (.allocationFailure s₁)
      · rw [if_neg hc] at hs
        cases hsplit : (s₁.removeChunkFromBin c .allocationCount).splitFound c (userSizeToChunkSize n) with
        | none =>
            rw [hsplit] at hs
            cases hs
        | some s₂ =>
            rw [hsplit] at hs
            have hdata : data c = 0 := congrArg (fun x => x.1.1) (Option.some.inj hs)
            exact absurd hdata (Nat.succ_ne_zero _)

/-- Once `resizeShrink` is reached the result is at least what was asked for. -/
theorem le_of_resizeShrink (hs : s.resizeShrink c need old = some (r, s')) : need - 8 ≤ r := by
  have hold : chunkSizeToUserSize old = old - 8 := rfl
  have hneed : chunkSizeToUserSize need = need - 8 := rfl
  rw [Arena.resizeShrink] at hs
  dsimp only at hs
  by_cases hlt : need < old
  · rw [if_pos hlt] at hs
    by_cases hkeep : old - need < smallestBin
    · rw [if_pos hkeep] at hs
      have hr := congrArg Prod.fst (Option.some.inj hs)
      dsimp only at hr
      omega
    · rw [if_neg hkeep] at hs
      cases hadd : Arena.addFreeChunk { s.recordResizeSuccess with
          mem := (split s.recordResizeSuccess.mem c need).1 } (split s.recordResizeSuccess.mem c need).2
          (some .splitToCount) with
      | none =>
          rw [hadd] at hs
          cases hs
      | some s₂ =>
          rw [hadd] at hs
          have hr := congrArg Prod.fst (Option.some.inj hs)
          dsimp only at hr
          omega
  · rw [if_neg hlt] at hs
    have hr := congrArg Prod.fst (Option.some.inj hs)
    dsimp only at hr
    omega

/-- The chunk size of a request that a chunk can satisfy has room for the header. -/
theorem le_userSizeToChunkSize (hn : n < 2 ^ 64) (hlt : userSizeToChunkSize n < 2 ^ 64 - 1) :
    n + 8 ≤ userSizeToChunkSize n := by
  rcases userSizeToChunkSize_spec hn with hmax | ⟨-, -, hle⟩
  · omega
  · exact hle

/-- A chunk that could not grow to the size asked for is as it was, like all the others. -/
theorem resize_short (h : Worked gap s k [] (t :: post) bins) (ht : t.free = false) (hn : n < 2 ^ 64)
    (hs : s.resize (t.addr + 8) n = some (r, s')) (hr : r < n) : SameButAttempts s s' := by
  have hlt := h.stop_le t (by simp)
  have haligned := (h.sound t (by simp)).aligned
  simp only [stop] at hlt
  by_cases hle : userSizeToChunkSize n ≤ t.size
  · rw [resize_small h (by omega) hle] at hs
    have := le_of_resizeShrink hs
    have := le_userSizeToChunkSize hn (by omega)
    omega
  · obtain hstuck | ⟨d, post, rfl, hd, hfit⟩ := stuck_or_grows t post (userSizeToChunkSize n)
    · rw [resize_stuck h (by omega) (by omega) hstuck] at hs
      obtain ⟨-, rfl⟩ := Prod.mk.inj (Option.some.inj hs)
      exact .recordResizeAttempt s
    · have hdlt := h.stop_le d (by simp)
      have hda := ((h.followed rfl).next d (by simp)).2
      simp only [stop] at hdlt hda
      obtain ⟨hgrow, -⟩ := resize_grow h (by omega) ht hd (by omega) hfit
      rw [hgrow] at hs
      have := le_of_resizeShrink hs
      have := le_userSizeToChunkSize hn (by omega)
      omega

/-- An allocation or a resize that fails leaves all chunks and bins as they are, and
the size computed for a request is either big enough, or bigger than any block. -/
theorem failure_changes_nothing (hv : h.Valid) (hc : h.Coalesced) (hs : s.Stores h) (hn : n < 2 ^ 64) :
    (∃ p size s', s.allocate n = some ((p, size), s') ∧ (p = 0 → SameButAttempts s s')) ∧
      (∀ t ∈ h.tiles, t.free = false →
        ∃ r s', s.resize (t.addr + 8) n = some (r, s') ∧ (r < n → SameButAttempts s s')) ∧
      (userSizeToChunkSize n % 16 = 0 ∧ n + 8 ≤ userSizeToChunkSize n ∨
        ∀ b ∈ h.blocks, b.size < userSizeToChunkSize n) := by
  have hholds := hs.holds hv
  have hq := hv.coalesced_iff.mp hc
  refine ⟨?_, ?_, ?_⟩
  · obtain ⟨⟨⟨p, size⟩, s'⟩, hres⟩ : ∃ x, s.allocate n = some x := by
      by_cases hfail : n = 0 ∨ largestBin ≤ userSizeToChunkSize n ∨ h.search n = none
      · obtain ⟨s', hres, -⟩ := allocate_fail hholds hfail
        exact ⟨_, hres⟩
      · rw [not_or, not_or, Nat.not_le] at hfail
        obtain ⟨hn0, hbig, hsome⟩ := hfail
        obtain ⟨x, hx⟩ := Option.ne_none_iff_exists'.mp hsome
        obtain ⟨s', h', size, hres, -⟩ := allocate_found hholds hq hn0 hn hbig hx
        exact ⟨_, hres⟩
    refine ⟨p, size, s', hres, fun hp => ?_⟩
    subst hp
    exact allocate_null hres
  · intro t htm ht
    obtain ⟨r, s', hres, -⟩ := resize_invariant_iff hv hc hs htm ht hn
    obtain ⟨k, post, -, hw⟩ := hholds.exists_worked htm
    exact ⟨r, s', hres, resize_short hw ht hn hres⟩
  · rcases userSizeToChunkSize_spec hn with hmax | ⟨h16, -, hle⟩
    · right
      intro b hb
      obtain ⟨hpos, haligned, hstop⟩ := hv.layout.placed b hb
      rw [Block.stop] at hstop
      omega
    · exact .inl ⟨h16, hle⟩

end Failure

/-- A request for more than the chunk and its free successor have. -/
theorem failure_changes_nothing_stuck :
    ∃ s r s', Arena.resize s 4128 200 = some (r, s') ∧ (r < 200 → SameButAttempts s s') := by
  obtain ⟨s, h, hb, hv, _, hs⟩ := usedFreeUsed_layout.realised
  have htiles : h.tiles = usedFreeUsed.flatMap Block.tiles := by rw [Heap.tiles, hb]
  have hc : h.Coalesced := hv.coalesced_iff.mpr (by rw [htiles]; decide)
  have htm : ⟨4120, 96, false, false, false⟩ ∈ h.tiles := by rw [htiles]; decide
  have hn : 200 < 2 ^ 64 := by decide
  obtain ⟨-, hresize, -⟩ := failure_changes_nothing hv hc hs hn
  obtain ⟨r, s', hres, hsame⟩ := hresize _ htm rfl
  exact ⟨s, r, s', hres, hsame⟩

end XviOs.Allocator
