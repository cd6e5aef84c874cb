import Mathlib.Data.List.TakeWhile
import XviOs.Allocator.FreeSpec

namespace XviOs.Allocator

open Library.LittleEndian Library.Bits Chunk Tile SizeClass BinList

variable {gap : Nat → UInt64} {s : Arena} {k : Spot} {post : List Tile} {h : Heap}
  {bins : Nat → List (Nat × Nat)} {t d : Tile} {x : Nat × Nat} {n i start need : Nat}

section Search

/-- The first chunk of size `need` at least, in `n` bins from bin `i` on. -/
def firstFit (bins : Nat → List (Nat × Nat)) (need i : Nat) : Nat → Option (Nat × Nat)
  | 0 => none
  | n + 1 =>
      match (bins i).find? (fun x => need ≤ x.2) with
      | some x => some x
      | none => firstFit bins need (i + 1) n

theorem firstFit_some (hf : firstFit bins need i n = some x) :
    need ≤ x.2 ∧ ∃ j, i ≤ j ∧ j < i + n ∧ (bins j).find? (fun y => need ≤ y.2) = some x ∧
      ∀ j' y, i ≤ j' → j' < j → y ∈ bins j' → y.2 < need := by
  induction n generalizing i with
  | zero => simp [firstFit] at hf
  | succ n ih =>
      rw [firstFit] at hf
      cases hfind : (bins i).find? (fun x => need ≤ x.2) with
      | some y =>
          rw [hfind] at hf
          obtain rfl : y = x := by simpa using hf
          refine ⟨by simpa using List.find?_some hfind, i, le_rfl, by omega, hfind, ?_⟩
          intro j' y h1 h2
          omega
      | none =>
          rw [hfind] at hf
          obtain ⟨hle, j, h1, h2, hj, hbefore⟩ := ih hf
          refine ⟨hle, j, by omega, by omega, hj, fun j' y h3 h4 hy => ?_⟩
          by_cases hj' : j' = i
          · subst hj'
            have := List.find?_eq_none.mp hfind y hy
            simpa using this
          · exact hbefore j' y (by omega) h4 hy

theorem firstFit_none (hf : firstFit bins need i n = none) :
    ∀ j y, i ≤ j → j < i + n → y ∈ bins j → y.2 < need := by
  induction n generalizing i with
  | zero => intro j y h1 h2; omega
  | succ n ih =>
      rw [firstFit] at hf
      cases hfind : (bins i).find? (fun x => need ≤ x.2) with
      | some y =>
          rw [hfind] at hf
          simp at hf
      | none =>
          rw [hfind] at hf
          intro j y h1 h2 hy
          by_cases hj : j = i
          · subst hj
            have := List.find?_eq_none.mp hfind y hy
            simpa using this
          · exact ih hf j y (by omega) (by omega) hy

/-- The scan of a bin finds its first chunk that is big enough. -/
theorem bestFitInList_bin (need : Nat) (hs : Holds gap s h) (hi : i < binCount) :
    bestFitInList s.mem need loopBound (s.bins i) =
      some ((((h.bins i).find? (fun x => need ≤ x.2)).map Prod.fst).getD 0) := by
  have hlen := hs.image.bin_length i
  rw [bestFitInList_spec (hs.image.lists i hi) (by rw [List.length_map]; exact hlen), notSmaller,
    List.headD_eq_head?_getD, ← List.find?_not_eq_head?_dropWhile, List.find?_map]
  congr 3
  refine List.find?_congr fun c hc => ?_
  obtain ⟨t, ht, _, rfl⟩ := hs.image.mem_bin hc
  have hsize : size s.mem t.addr = t.size := (hs.image.headers t (by simpa using ht)).size_eq
  simp only [Function.comp, hsize, ← decide_not, Nat.not_lt]

theorem bin_head (hs : Holds gap s h) (hi : i < binCount) : s.bins i = 0 ↔ h.bins i = [] := by
  have hl := hs.image.lists i hi
  cases hb : h.bins i with
  | nil =>
      rw [hb] at hl
      have hz : s.bins i = 0 := hl
      simp [hz]
  | cons c l =>
      rw [hb] at hl
      have hne : s.bins i ≠ 0 := by
        rw [hl.1]
        exact hl.2.1
      simp [hne]

/-- The statistics that a search keeps. -/
structure SameButSearch (s s' : Arena) : Prop where
  mem : s'.mem = s.mem
  blocks : s'.blocks = s.blocks
  bins : s'.bins = s.bins
  accounting : s'.accounting = s.accounting
  chunkCount : ∀ i, (s'.binAccounting i).chunkCount = (s.binAccounting i).chunkCount

theorem SameButSearch.trans {s₁ s₂ s₃ : Arena} (h : SameButSearch s₁ s₂) (h' : SameButSearch s₂ s₃) :
    SameButSearch s₁ s₃ :=
  ⟨h'.mem.trans h.mem, h'.blocks.trans h.blocks, h'.bins.trans h.bins, h'.accounting.trans h.accounting,
    fun i => (h'.chunkCount i).trans (h.chunkCount i)⟩

theorem SameButSearch.holds {s' : Arena} (hs : Holds gap s h) (hk : SameButSearch s s') : Holds gap s' h :=
  hs.congr hk.mem hk.blocks hk.bins hk.chunkCount

/-- The search ends, and finds what `firstFit` says. -/
theorem searchBins_spec (hs : Holds gap s h) (hn : i + n ≤ binCount) :
    ∃ s', Arena.searchBins start need s i n = some (((firstFit h.bins need i n).map Prod.fst).getD 0, s') ∧
      SameButSearch s s' := by
  induction n generalizing s i with
  | zero => exact ⟨s, rfl, rfl, rfl, rfl, rfl, fun _ => rfl⟩
  | succ n ih =>
      have hk : SameButSearch s (s.countSearch start i) := ⟨rfl, rfl, rfl, rfl, s.countSearch_chunkCount start i⟩
      obtain ⟨s', hs', hk'⟩ := ih (hk.holds hs) (by omega : i + 1 + n ≤ binCount)
      have hi : i < binCount := by omega
      have hbins : (s.countSearch start i).bins i = s.bins i := rfl
      have hmem : (s.countSearch start i).mem = s.mem := rfl
      cases hfind : (h.bins i).find? (fun x => need ≤ x.2) with
      | none =>
          refine ⟨s', ?_, hk.trans hk'⟩
          have hbest := bestFitInList_bin need hs hi
          rw [hfind] at hbest
          simp only [Arena.searchBins, firstFit, hbins, hmem, hbest, hfind, ← hs']
          split <;> rfl
      | some x =>
          have hx : x ∈ h.bins i := List.mem_of_find?_eq_some hfind
          obtain ⟨t, ht, _, rfl⟩ := hs.image.mem_bin hx
          have hne : t.addr ≠ 0 := (hs.image.addr_lt t (by simpa using ht)).1.ne'
          have hhead : s.bins i ≠ 0 := by
            intro hz
            rw [(bin_head hs hi).mp hz] at hx
            simp at hx
          have hbest := bestFitInList_bin need hs hi
          rw [hfind] at hbest
          refine ⟨(s.countSearch start i).incrementBin i .allocationCount, ?_,
            hk.trans ⟨rfl, rfl, rfl, rfl, fun j => Arena.incrementBin_chunkCount _ i j _⟩⟩
          simp [Arena.searchBins, firstFit, hbins, hmem, hbest, hfind, hhead, hne]

end Search

section Take

/-- `split` on a free chunk: the rest is a free chunk of its own, not in a bin yet. -/
theorem Worked.split {r : Nat} (h : Worked gap s k [t] post bins) (ht : t.free = true) (hsize : t.size = n + r)
    (hn : 32 ≤ n) (hn16 : n % 16 = 0) (hr : 32 ≤ r) :
    Worked gap { s with mem := (Chunk.split s.mem t.addr n).1 } k
        [{ t with size := n, last := false }, ⟨t.addr + n, r, true, true, t.last⟩] post bins ∧
      Tile.Footed ⟨t.addr + n, r, true, true, t.last⟩ (Chunk.split s.mem t.addr n).1 := by
  have hsound := h.sound t (by simp)
  have htold : setPredFree true post = post := ht ▸ h.told
  obtain ⟨hc, _, hrin, hrfoot, hhead, heff⟩ :=
    split_spec (h.mem_header (by simp)) (h.followed rfl) hsize hn (by omega) hr
  rw [ht] at hrin hrfoot
  have hstop : t.stop = t.addr + n + r := by rw [stop, hsize, Nat.add_assoc]
  refine ⟨?_, hrfoot⟩
  rw [← htold]
  refine h.recut (by simp) (by simp) ⟨rfl, rfl⟩ h.head_addr heff true ?_ ?_ ?_ ?_ hhead
  · rintro p a q e ⟨ha, hp, hrun⟩
    rw [htold]
    refine ⟨q, ha, hp, rfl, ht.symm, ?_⟩
    rw [ht, hstop] at hrun
    exact hrun
  · rintro ⟨hl, hrest⟩
    rw [htold]
    exact ⟨rfl, hl, hrest⟩
  · have hmod := hsound.size_mod
    have hal := hsound.aligned
    intro u hu
    rcases List.mem_cons.mp hu with rfl | hu
    · exact ⟨hn, by dsimp only; omega, hal⟩
    · obtain rfl := List.mem_singleton.mp hu
      exact ⟨hr, by dsimp only; omega, by dsimp only; omega⟩
  · intro u hu
    rcases List.mem_cons.mp hu with rfl | hu
    · exact hc
    · obtain rfl := List.mem_singleton.mp hu
      exact hrin

/-- Handing out a chunk: it is marked in use, and what follows is told so. -/
theorem takeChunk_spec (h : Worked gap s k [t] post bins) :
    ∃ s', s.takeChunk t.addr = ((t.addr + 8, t.size - 8), s') ∧
      Worked gap s' k [] ({ t with free := false } :: setPredFree false post) bins ∧
      s'.usage = (s.usage.1 + 1, s.usage.2 + UInt64.ofNat t.size) := by
  have hsize := (h.sound t (by simp)).size_ge
  have hmark : markNotFree s.mem t.addr = tell false post ({ t with free := false }.put s.mem) :=
    markNotFree_eq (h.mem_header (by simp)) (h.followed rfl) (by omega)
  have hw := h.mark false
  rw [← hmark] at hw
  have hin : { t with free := false }.In (markNotFree s.mem t.addr) := hw.mem_header (by simp)
  have hs : size (markNotFree s.mem t.addr) t.addr = t.size := hin.size_eq
  obtain ⟨s', hs'⟩ : ∃ s', s' = (s.takeChunk t.addr).2 := ⟨_, rfl⟩
  have hw' : Worked gap s' k [{ t with free := false }] (setPredFree false post) bins := by
    rw [hs']
    exact hw.congr rfl rfl rfl (fun _ => rfl)
  refine ⟨s', ?_, @Worked.settle gap s' k [] _ bins _ hw' rfl, ?_⟩
  · rw [hs']
    simp only [Arena.takeChunk, dataSize, hs, data, sizeofChunkHeader]
  · rw [hs', Arena.usage, Arena.takeChunk, hs]
    rfl

/-- Cutting what is not needed off the chunk found, and handing it out. -/
theorem splitFound_spec (h : Worked gap s k [t] post bins) (ht : t.free = true) (hneed : need ≤ t.size)
    (hn : 32 ≤ need) (hn16 : need % 16 = 0) (hq : Quiet post) :
    ∃ s' c post' bins', s.splitFound t.addr need = some s' ∧ Worked gap s' k [c] post' bins' ∧
      (c.addr = t.addr ∧ c.predFree = t.predFree ∧ need ≤ c.size) ∧ Quiet (setPredFree false post') ∧
      liveChunks post' = liveChunks post ∧ (SortedBins bins → SortedBins bins') ∧ s'.usage = s.usage := by
  have hsize : size s.mem t.addr = t.size := (h.mem_header (by simp)).size_eq
  have hlt := h.stop_le t (by simp)
  have hpos := (h.sound t (by simp)).pos
  simp only [stop] at hlt
  have hcan := canSplit_iff t.size hn16 (by omega)
  by_cases hc : need + 32 ≤ t.size
  · obtain ⟨r, hr⟩ : ∃ r, t.size = need + r := ⟨t.size - need, by omega⟩
    have hw₁ := (h.incrementBin (sizeToBinIndex t.size) .splitFromCount).split ht hr hn hn16 (by omega)
    obtain ⟨hw₂, hfoot⟩ := hw₁
    have hmem : (s.incrementBin (sizeToBinIndex t.size) .splitFromCount).mem = s.mem := rfl
    obtain ⟨m', hm'⟩ : ∃ m', Chunk.split s.mem t.addr need = (m', t.addr + need) := ⟨_, split_eq _ _ _⟩
    rw [hmem, hm'] at hw₂ hfoot
    obtain ⟨s₃, hadd, hacct, hw₃, -⟩ := @Worked.insert gap _ k [_] post bins _ hw₂ rfl hfoot (some .splitToCount)
    dsimp only at hadd
    have hw₄ := (hw₃.incrementBin (sizeToBinIndex (size s₃.mem t.addr)) .splitToCount).recordSplit chunkOverheadSize
    have hs₄ : s.splitFound t.addr need = some
        ((s₃.incrementBin (sizeToBinIndex (size s₃.mem t.addr)) .splitToCount).recordSplit chunkOverheadSize) := by
      simp only [Arena.splitFound, hsize, hcan.mpr hc, if_true, hmem, hm', hadd]
      rfl
    have husage : s₃.usage = s.usage := by rw [Arena.usage, hacct]; rfl
    refine ⟨_, _, _, _, hs₄, hw₄, ⟨rfl, rfl, le_rfl⟩, quiet_cons.mpr ⟨fun _ => rfl, hq⟩, ?_,
      fun hs => hs.rebin _, husage⟩
    exact liveChunks_cons_free rfl post
  · have hno : canSplit t.size need = false := Bool.eq_false_iff.mpr (fun hyes => hc (hcan.mp hyes))
    refine ⟨s, t, post, bins, ?_, h, ⟨rfl, rfl, hneed⟩, hq.told_false, rfl, id, rfl⟩
    simp [Arena.splitFound, hsize, hno]

end Take

/-- The free chunk that serves a request, going by the bins. -/
def Heap.search (h : Heap) (n : Nat) : Option (Nat × Nat) :=
  firstFit h.bins (userSizeToChunkSize n) (sizeToBinIndex (userSizeToChunkSize n))
    (binCount - sizeToBinIndex (userSizeToChunkSize n))

section Allocate

theorem allocationFailure_holds (hs : Holds gap s h) : Holds gap s.allocationFailure.2 h :=
  hs.congr rfl rfl rfl (fun _ => rfl)

theorem search_spec (hs : Holds gap s h) (n : Nat) :
    ∃ s', Arena.searchBins (sizeToBinIndex (userSizeToChunkSize n)) (userSizeToChunkSize n) s
        (sizeToBinIndex (userSizeToChunkSize n)) (binCount - sizeToBinIndex (userSizeToChunkSize n)) =
          some (((h.search n).map Prod.fst).getD 0, s') ∧
      SameButSearch s s' := by
  have := sizeToBinIndex_lt (userSizeToChunkSize n)
  exact searchBins_spec hs (by omega)

/-- `allocate` fails, and changes the statistics at most. -/
theorem allocate_fail (hs : Holds gap s h)
    (hf : n = 0 ∨ largestBin ≤ userSizeToChunkSize n ∨ h.search n = none) :
    ∃ s', s.allocate n = some ((0, 0), s') ∧ Holds gap s' h ∧ s'.usage = s.usage ∧
      s'.accounting.chunksFree = s.accounting.chunksFree := by
  have hbit : hasSingleBit alignment = true := by decide
  by_cases hn : n = 0
  · exact ⟨s, by simp [Arena.allocate, Arena.allocateAligned, hn], hs, rfl, rfl⟩
  by_cases hbig : largestBin ≤ userSizeToChunkSize n
  · exact ⟨s.allocationFailure.2, by simp [Arena.allocate, Arena.allocateAligned, hn, hbit, hbig]; rfl,
      allocationFailure_holds hs, rfl, rfl⟩
  · have hnone : h.search n = none := by tauto
    obtain ⟨s', hsearch, hk⟩ := search_spec hs n
    rw [hnone] at hsearch
    refine ⟨s'.allocationFailure.2, ?_, allocationFailure_holds (hk.holds hs), ?_, ?_⟩
    · simp [Arena.allocate, Arena.allocateAligned, hn, hbit, hbig, hsearch]
      rfl
    · simp only [Arena.usage, Arena.allocationFailure, hk.accounting]
    · simp only [Arena.allocationFailure, hk.accounting]

/-- `allocate` hands out the chunk that the search finds, or a part of it. -/
theorem allocate_found (hs : Holds gap s h) (hq : Quiet h.tiles) (hn : n ≠ 0) (hlt : n < 2 ^ 64)
    (hbig : userSizeToChunkSize n < largestBin) (hf : h.search n = some x) :
    ∃ s' h' size, s.allocate n = some ((x.1 + 8, size - 8), s') ∧ Holds gap s' h' ∧ Quiet h'.tiles ∧
      h'.extents = h.extents ∧ (liveChunks h'.tiles).Perm ((x.1, size) :: liveChunks h.tiles) ∧
      n + 8 ≤ size ∧ (h.Sorted → h'.Sorted) ∧
      s'.usage = (s.usage.1 + 1, s.usage.2 + UInt64.ofNat size) := by
  have hbit : hasSingleBit alignment = true := by decide
  have hlarge : largestBin = 131072 := by decide
  obtain ⟨hn16, hn32, hn8⟩ : userSizeToChunkSize n % 16 = 0 ∧ 32 ≤ userSizeToChunkSize n ∧
      n + 8 ≤ userSizeToChunkSize n := by
    rcases userSizeToChunkSize_spec hlt with hmax | hok
    · omega
    · exact hok
  -- the search
  obtain ⟨s₁, hsearch, hk⟩ := search_spec hs n
  rw [hf] at hsearch
  rw [Heap.search] at hf
  obtain ⟨hfit, j, _, _, hfind, _⟩ := firstFit_some hf
  have hs₁ := hk.holds hs
  obtain ⟨d, hd, hdf, rfl⟩ := hs₁.image.mem_bin (List.mem_of_find?_eq_some hfind)
  obtain ⟨k, post, hb, hw₁⟩ := hs₁.exists_worked hd
  have hperm : h.tiles.Perm ((d :: post) ++ k.rest) := by
    rw [Heap.tiles, hb]
    exact k.tiles_perm _
  have hqs := quiet_append.mp (hq.perm hperm)
  have hne : d.addr ≠ 0 := (hw₁.sound d (by simp)).pos.ne'
  -- the chunk leaves its bin, is cut and handed out
  have hw₂ := hw₁.removeSuccessor .allocationCount hdf
  obtain ⟨s₃, c, post₃, bins₃, hsplit, hw₃, ⟨hca, hcp, hcs⟩, hq₃, hlive₃, hsort₃, hu₃⟩ :=
    splitFound_spec hw₂ hdf hfit hn32 hn16 (quiet_cons.mp hqs.1).2
  obtain ⟨s₄, htake, hw₄, hu₄⟩ := takeChunk_spec hw₃
  refine ⟨s₄, ⟨k.blocks _, bins₃⟩, c.size, ?_, hw₄.holds, ?_, ?_, ?_, by omega, ?_, ?_⟩
  · have : ¬ largestBin ≤ userSizeToChunkSize n := by omega
    rw [hca] at htake
    simp [Arena.allocate, Arena.allocateAligned, hn, hbit, this, hsearch, hne, hsplit, htake]
  · refine Quiet.perm ?_ hw₄.tiles_perm.symm
    exact quiet_append.mpr ⟨quiet_cons.mpr ⟨fun hc => absurd hc Bool.false_ne_true, hq₃⟩, hqs.2⟩
  · rw [Heap.extents, Heap.extents, hb, k.extents_eq, k.extents_eq]
  · refine (liveChunks_perm hw₄.tiles_perm).trans ?_
    refine List.Perm.trans ?_ ((liveChunks_perm hperm).symm.cons _)
    rw [List.cons_append, List.cons_append, liveChunks_cons_live rfl, liveChunks_cons_free hdf, liveChunks_append,
      liveChunks_append, liveChunks_setPredFree, hlive₃, hca]
  · exact fun hsorted => hsort₃ (SortedBins.unbin hsorted _)
  · rw [hu₄, hu₃, Arena.removeChunkFromBin_usage, Arena.usage, Arena.usage, hk.accounting]

end Allocate

end XviOs.Allocator
