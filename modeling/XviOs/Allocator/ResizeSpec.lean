import XviOs.Allocator.FreeSpec
import XviOs.Allocator.Realise

namespace XviOs.Allocator

open Library.LittleEndian Chunk Tile SizeClass BinList

variable {gap : Nat → UInt64} {s : Arena} {k : Spot} {post : List Tile} {h : Heap}
  {bins : Nat → List (Nat × Nat)} {t d : Tile} {m : Mem} {n r need : Nat}

/-- A chunk in use that has swallowed its free successor `d`. -/
def Tile.grown (t d : Tile) : Tile := { t with size := t.size + d.size, last := d.last }

section Grow

/-- Merging a chunk in use with its free successor leaves a layout, but for the
chunk that follows: its `PredFree` flag is still set. -/
theorem Worked.mergeLive (h : Worked gap s k [t, d] post bins) (ht : t.free = false) (hd : d.free = true) :
    Image gap { s with mem := mergeWithSuccessor s.mem t.addr } k.extents [t.grown d] (post ++ k.rest) bins ∧
      Layout (k.blocks (t.grown d :: setPredFree false post)) ∧
      Followed (mergeWithSuccessor s.mem t.addr) (t.grown d) post ∧ setPredFree true post = post := by
  obtain ⟨p, a, q, _, hrun⟩ := h.layout.run
  obtain ⟨_, _, hda, _, hpost⟩ := hrun
  have htold : setPredFree true post = post := hd ▸ hpost.setPredFree_eq
  have hts := h.sound t (by simp)
  have hds := h.sound d (by simp)
  have hlt := h.stop_le d (by simp)
  have hend : d.stop = t.addr + (t.size + d.size) := by rw [stop, hda, stop, Nat.add_assoc]
  have hpos := hts.pos
  have hsize := hts.size_ge
  have hsum : t.size + d.size < 2 ^ 64 := by omega
  have hmod : (t.size + d.size) % 8 = 0 := by
    have := hts.size_mod
    have := hds.size_mod
    omega
  have heq : mergeWithSuccessor s.mem t.addr = (t.grown d).put s.mem :=
    mergeWithSuccessor_eq (h.mem_header (by simp)) (h.followed rfl) hd hsum
  have hlayout : Layout (k.blocks (t.grown d :: setPredFree false post)) := by
    refine h.layout.recut (by simp) (by simp) ?_ ?_ ?_
    · rintro p a q e ⟨ha, hp, _, _, hr⟩
      obtain ⟨q', hq'⟩ := hr.setPredFree false
      refine ⟨q', ha, hp, ?_⟩
      show Run t.free (t.addr + (t.size + d.size)) (setPredFree false post) q' e
      rw [← hend, ht]
      exact hq'
    · rintro ⟨_, hl⟩
      simpa [LastOnly, isEmpty_setPredFree, grown] using hl
    · intro u hu
      rcases List.mem_cons.mp hu with rfl | hu
      · exact ⟨hts.min.trans (Nat.le_add_right _ _), hmod, hts.aligned⟩
      · exact setPredFree_sound false (fun v hv => h.sound v (by simp [hv])) u hu
  have heff : Effect t.addr d.stop post s.mem ((t.grown d).put s.mem) :=
    put_effect (by dsimp only [grown]; omega)
  have hheads : ∀ e ∈ post.head?, e.In ((t.grown d).put s.mem) := by
    intro e he
    have hea := hpost.head_addr e he
    refine (h.mem_header (by simp [List.mem_of_mem_head? he])).put_of_disjoint ?_
    rw [hea]
    dsimp only [grown]
    omega
  have hspot : Placed k.extents ([t.grown d] ++ (setPredFree false post ++ k.rest)) := hlayout.placed_spot
  have hplaced := hspot.told true
  rw [setPredFree_setPredFree] at hplaced
  have himage := h.image.recut (by simp) ⟨rfl, hda, rfl⟩ hpost.head_addr heff true hplaced
    (by simpa using put_in hmod hsum) (by rw [htold]; exact hheads)
  rw [htold] at himage
  rw [heq]
  refine ⟨himage, hlayout, ⟨?_, fun e he => ⟨hheads e he, ?_⟩⟩, htold⟩
  · exact (h.layout.lastOnly (by simp)).2.1
  · rw [hpost.head_addr e he, hend]
    rfl

end Grow

section Shrink

/-- The free chunk that `split` cuts off the end of a chunk in use. -/
def Tile.cutOff (t : Tile) (n r : Nat) : Tile := ⟨t.addr + n, r, true, false, t.last⟩

/-- `split` on a chunk in use. What follows may have been told that the chunk is
free, as it has after a merge. -/
theorem Image.splitLive (h : Image gap s k.extents [t] (post ++ k.rest) bins)
    (hlayout : Layout (k.blocks (t :: setPredFree false post))) (hf : Followed s.mem t post)
    (ht : t.free = false) (hsize : t.size = n + r) (hn : 32 ≤ n) (hn16 : n % 16 = 0) (hr : 32 ≤ r) :
    Worked gap { s with mem := (Chunk.split s.mem t.addr n).1 } k
        [{ t with size := n, last := false }, t.cutOff n r] (setPredFree true post) bins ∧
      (t.cutOff n r).Footed (Chunk.split s.mem t.addr n).1 := by
  have hsound := h.placed.sound t (by simp)
  obtain ⟨hc, _, hrin, hrfoot, hhead, heff⟩ := split_spec (h.headers t (by simp)) hf hsize hn (by omega) hr
  rw [ht] at hrin hrfoot
  have hstop : t.stop = t.addr + n + r := by rw [stop, hsize, Nat.add_assoc]
  have hmod := hsound.size_mod
  have hal := hsound.aligned
  have hcut : Layout (k.blocks ([{ t with size := n, last := false }, t.cutOff n r] ++ setPredFree true post)) := by
    refine hlayout.recut (by simp) (by simp) ?_ ?_ ?_
    · rintro p a q e ⟨ha, hp, hrun⟩
      obtain ⟨q', hq'⟩ := hrun.setPredFree true
      rw [setPredFree_setPredFree, hstop] at hq'
      exact ⟨q', ha, hp, rfl, ht.symm, hq'⟩
    · rintro ⟨hl, hrest⟩
      rw [isEmpty_setPredFree] at hl
      rw [lastOnly_setPredFree] at hrest
      refine ⟨rfl, ?_, (lastOnly_setPredFree true).mpr hrest⟩
      show t.last = (setPredFree true post).isEmpty
      rw [isEmpty_setPredFree]
      exact hl
    · intro u hu
      simp only [List.cons_append, List.nil_append, List.mem_cons] at hu
      rcases hu with rfl | rfl | hu
      · exact ⟨hn, by dsimp only; omega, hal⟩
      · exact ⟨hr, by dsimp only [cutOff]; omega, by dsimp only [cutOff]; omega⟩
      · refine setPredFree_sound true (fun v hv => ?_) u hu
        exact h.placed.sound v (by simp [hv])
  refine ⟨⟨hcut, ?_⟩, hrfoot⟩
  refine h.recut (by simp) ⟨rfl, rfl⟩ (fun d hd => (hf.next d hd).2) heff true ?_ ?_ hhead
  · have := hcut.placed_spot
    rwa [List.append_assoc] at this
  · intro u hu
    rcases List.mem_cons.mp hu with rfl | hu
    · exact hc
    · obtain rfl := List.mem_singleton.mp hu
      exact hrin

/-- Cutting off the end of a chunk in use. -/
theorem resizeShrink_cut (h : Image gap s k.extents [t] (post ++ k.rest) bins)
    (hlayout : Layout (k.blocks (t :: setPredFree false post))) (hf : Followed s.mem t post)
    (ht : t.free = false) (hn : 32 ≤ n) (hn16 : n % 16 = 0) (hcut : n + 32 ≤ t.size) :
    ∃ s', s.resizeShrink t.addr n t.size = some (n - 8, s') ∧
      Worked gap s' k [] ({ t with size := n, last := false } :: t.cutOff n (t.size - n) :: setPredFree true post)
        (rebin bins (t.addr + n, t.size - n)) ∧ s'.usage = s.usage ∧
      KeepsChunks ((t.addr, n) :: liveChunks (post ++ k.rest)) s.mem s'.mem := by
  have hsize : t.size = n + (t.size - n) := by omega
  obtain ⟨m', hm'⟩ : ∃ m', Chunk.split s.mem t.addr n = (m', t.addr + n) := ⟨_, split_eq _ _ _⟩
  obtain ⟨hw₁, hfoot⟩ := h.splitLive hlayout hf ht hsize hn hn16 (by omega)
  rw [hm'] at hw₁ hfoot
  obtain ⟨s₁, hs₁⟩ : ∃ s₁ : Arena, s₁ = { s.recordResizeSuccess with mem := m' } := ⟨_, rfl⟩
  have hw₂ : Worked gap s₁ k [{ t with size := n, last := false }, t.cutOff n (t.size - n)] (setPredFree true post)
      bins := by
    rw [hs₁]
    exact hw₁.congr rfl rfl rfl (fun _ => rfl)
  have hfoot₂ : (t.cutOff n (t.size - n)).Footed s₁.mem := by rw [hs₁]; exact hfoot
  obtain ⟨s₂, hadd, hacct, hw₃, hkeeps₂⟩ :=
    @Worked.insert gap s₁ k [_] _ bins (t.cutOff n (t.size - n)) hw₂ rfl hfoot₂ (some .splitToCount)
  have hw₄ := @Worked.settle gap s₂ k [] _ _ _ hw₃ ht
  refine ⟨s₂.recordSplit sizeofChunkHeader, ?_, hw₄.recordSplit _, ?_, ?_⟩
  · have hsmall : smallestBin = 32 := by decide
    have h1 : n < t.size := by omega
    have h2 : ¬ t.size - n < smallestBin := by omega
    have hmem : s.recordResizeSuccess.mem = s.mem := rfl
    simp only [Arena.resizeShrink, h1, h2, if_true, if_false, hmem, hm', ← hs₁]
    rw [show t.addr + n = (t.cutOff n (t.size - n)).addr from rfl, hadd]
    rfl
  · have : s₂.usage = s₁.usage := by rw [Arena.usage, hacct]; rfl
    exact this.trans (by rw [hs₁]; rfl)
  · have hkeeps₁ : KeepsChunks ((t.addr, n) :: liveChunks (post ++ k.rest)) s.mem s₁.mem := by
      have hown := split_keeps (h.headers t (by simp)) hf hsize hn (by omega) (by omega) ht
      obtain ⟨-, -, -, -, -, heff⟩ := split_spec (h.headers t (by simp)) hf hsize hn (by omega) (by omega)
      have hothers := h.effect_keeps (by simp) ⟨rfl, rfl⟩ (fun d hd => (hf.next d hd).2) heff
      rw [hm'] at hown hothers
      rw [hs₁]
      exact List.forall_mem_cons.mpr ⟨hown, hothers⟩
    have hkept : liveChunks ({ t with size := n, last := false } :: (setPredFree true post ++ k.rest)) =
        (t.addr, n) :: liveChunks (post ++ k.rest) := by
      rw [liveChunks_append, ← @liveChunks_setPredFree true post, ← liveChunks_append]
      exact @liveChunks_cons_live { t with size := n, last := false } ht _
    rw [List.singleton_append, hkept] at hkeeps₂
    exact hkeeps₁.trans hkeeps₂

/-- Not cutting off what would be too small for a chunk. -/
theorem resizeShrink_keep {old : Nat} (s : Arena) (c : Nat) (hle : n ≤ old) (hkeep : old < n + 32) :
    s.resizeShrink c n old = some (old - 8, s.recordResizeSuccess) := by
  have hsmall : smallestBin = 32 := by decide
  by_cases hlt : n < old
  · have h2 : old - n < smallestBin := by omega
    simp [Arena.resizeShrink, hlt, h2, chunkSizeToUserSize, chunkOverheadSize, sizeofChunkHeader]
  · obtain rfl : n = old := by omega
    simp [Arena.resizeShrink, chunkSizeToUserSize, chunkOverheadSize, sizeofChunkHeader]

end Shrink

/-- The cases in which `resize` leaves the flags of a chunk or its neighbours
wrong: it cuts a free chunk off in front of a free chunk, or it uses up all of a
free successor and does not tell the chunk after that. -/
def Arena.resizeBreaks (s : Arena) (memory requestedSize : Nat) : Bool :=
  let chunk := fromDataPointer memory
  let oldSize := size s.mem chunk
  let newSize := userSizeToChunkSize requestedSize
  let next := successor s.mem chunk
  requestedSize != 0 && isSuccessorFree s.mem chunk &&
    (newSize + smallestBin ≤ oldSize ||
      (oldSize < newSize && newSize ≤ oldSize + size s.mem next &&
        oldSize + size s.mem next < newSize + smallestBin && !isLast s.mem next))

section Resize

theorem resizeBreaks_nil (h : Worked gap s k [] [t] bins) : s.resizeBreaks (t.addr + 8) n = false := by
  have hlast := h.layout.lastOnly (by simp)
  have hl : t.last = true := hlast.1
  have hchunk : fromDataPointer (t.addr + 8) = t.addr := rfl
  have hin := h.mem_header (t := t) (by simp)
  simp [Arena.resizeBreaks, hchunk, isSuccessorFree, hin.isLast_eq, hl]

/-- The successor of a chunk, as the source computes it. -/
theorem Worked.successor_eq (h : Worked gap s k [] (t :: d :: post) bins) :
    successor s.mem t.addr = d.addr ∧ isLast s.mem t.addr = false := by
  have hlast := h.layout.lastOnly (by simp)
  have hl : t.last = false := hlast.1
  have hin := h.mem_header (t := t) (by simp)
  obtain ⟨_, hda⟩ := (h.followed rfl).next d (by simp)
  exact ⟨by rw [hin.successor_eq, hl, hda]; rfl, by rw [hin.isLast_eq, hl]⟩

theorem resizeBreaks_iff (h : Worked gap s k [] (t :: d :: post) bins) :
    s.resizeBreaks (t.addr + 8) n = true ↔ n ≠ 0 ∧ d.free = true ∧
      (userSizeToChunkSize n + 32 ≤ t.size ∨
        (t.size < userSizeToChunkSize n ∧ userSizeToChunkSize n ≤ t.size + d.size ∧
          t.size + d.size < userSizeToChunkSize n + 32 ∧ post ≠ [])) := by
  obtain ⟨hsucc, hl⟩ := h.successor_eq
  have hchunk : fromDataPointer (t.addr + 8) = t.addr := rfl
  have hin := h.mem_header (t := t) (by simp)
  have hdin := h.mem_header (t := d) (by simp)
  have hdl : d.last = post.isEmpty := (h.layout.lastOnly (by simp)).2.1
  have hsmall : smallestBin = 32 := by decide
  have hempty : post.isEmpty = false ↔ post ≠ [] := by cases post <;> simp
  simp only [Arena.resizeBreaks, hchunk, isSuccessorFree, hl, hsucc, hin.size_eq, hdin.size_eq, hdin.isFree_eq,
    hdin.isLast_eq, hdl, hsmall, Bool.and_eq_true, Bool.or_eq_true, decide_eq_true_eq, bne_iff_ne,
    Bool.not_false, Bool.true_and, Bool.not_eq_true', hempty, and_assoc]

/-- `resize` when the chunk is big enough already. -/
theorem resize_small (h : Worked gap s k [] (t :: post) bins) (hn : n ≠ 0) (hle : userSizeToChunkSize n ≤ t.size) :
    s.resize (t.addr + 8) n = s.recordResizeAttempt.resizeShrink t.addr (userSizeToChunkSize n) t.size := by
  have hchunk : fromDataPointer (t.addr + 8) = t.addr := rfl
  have hin := h.mem_header (t := t) (by simp)
  have hmem : s.recordResizeAttempt.mem = s.mem := rfl
  have hgt : ¬ userSizeToChunkSize n > t.size := by omega
  simp [Arena.resize, hn, hchunk, hmem, hin.size_eq, hgt]

/-- A chunk is followed by a free one with which it is big enough, or it cannot grow. -/
theorem stuck_or_grows (t : Tile) (post : List Tile) (need : Nat) :
    (∀ d ∈ post.head?, d.free = false ∨ t.size + d.size < need) ∨
      ∃ d rest, post = d :: rest ∧ d.free = true ∧ need ≤ t.size + d.size := by
  cases post with
  | nil => simp
  | cons d rest =>
      by_cases hd : d.free = true ∧ need ≤ t.size + d.size
      · exact .inr ⟨d, rest, rfl, hd⟩
      · rw [not_and, Nat.not_le] at hd
        refine .inl fun d' hd' => ?_
        obtain rfl : d = d' := by simpa using hd'
        cases hf : d.free with
        | false => exact .inl rfl
        | true => exact .inr (hd hf)

/-- `resize` when the chunk cannot grow where it is. -/
theorem resize_stuck (h : Worked gap s k [] (t :: post) bins) (hn : n ≠ 0) (hgt : t.size < userSizeToChunkSize n)
    (hstuck : ∀ d ∈ post.head?, d.free = false ∨ t.size + d.size < userSizeToChunkSize n) :
    s.resize (t.addr + 8) n = some (t.size - 8, s.recordResizeAttempt) := by
  have hchunk : fromDataPointer (t.addr + 8) = t.addr := rfl
  have hin := h.mem_header (t := t) (by simp)
  have hmem : s.recordResizeAttempt.mem = s.mem := rfl
  have hcond : successor s.mem t.addr = 0 ∨ isFree s.mem (successor s.mem t.addr) = false ∨
      t.size + size s.mem (successor s.mem t.addr) < userSizeToChunkSize n := by
    cases post with
    | nil =>
        have hl : t.last = true := (h.layout.lastOnly (by simp)).1
        exact .inl (by rw [hin.successor_eq, hl]; rfl)
    | cons d post =>
        have hdin := h.mem_header (t := d) (by simp)
        rw [h.successor_eq.1, hdin.isFree_eq, hdin.size_eq]
        exact .inr (hstuck d (by simp))
  simp [Arena.resize, hn, hchunk, hmem, hin.size_eq, hgt, hcond, chunkSizeToUserSize, chunkOverheadSize,
    sizeofChunkHeader]

/-- The state of `resize` after the free successor has been swallowed. -/
def Arena.swallow (s : Arena) (chunk next : Nat) : Arena :=
  let s := s.recordResizeAttempt.removeChunkFromBin next .mergeFromCount
  recordMerge { s with mem := mergeWithSuccessor s.mem chunk }

theorem resize_grow (h : Worked gap s k [] (t :: d :: post) bins) (hn : n ≠ 0) (ht : t.free = false)
    (hd : d.free = true) (hgt : t.size < userSizeToChunkSize n) (hfit : userSizeToChunkSize n ≤ t.size + d.size) :
    s.resize (t.addr + 8) n =
        (s.swallow t.addr d.addr).resizeShrink t.addr (userSizeToChunkSize n) (t.size + d.size) ∧
      Image gap (s.swallow t.addr d.addr) k.extents [t.grown d] (post ++ k.rest) (unbin bins (d.addr, d.size)) ∧
      Layout (k.blocks (t.grown d :: setPredFree false post)) ∧
      Followed (s.swallow t.addr d.addr).mem (t.grown d) post ∧ setPredFree true post = post ∧
      (s.swallow t.addr d.addr).usage = s.usage ∧
      KeepsChunks ((t.addr, t.size) :: liveChunks (post ++ k.rest)) s.mem (s.swallow t.addr d.addr).mem := by
  have hchunk : fromDataPointer (t.addr + 8) = t.addr := rfl
  have hin := h.mem_header (t := t) (by simp)
  have hdin := h.mem_header (t := d) (by simp)
  have hmem : s.recordResizeAttempt.mem = s.mem := rfl
  have h₁ : Worked gap s.recordResizeAttempt k [] (t :: d :: post) bins := h.congr rfl rfl rfl (fun _ => rfl)
  have h₂ := (h₁.unsettle ht).removeSuccessor .mergeFromCount hd
  obtain ⟨himage, hlayout, hf, htold⟩ := h₂.mergeLive ht hd
  have himage' : Image gap (s.swallow t.addr d.addr) k.extents [t.grown d] (post ++ k.rest)
      (unbin bins (d.addr, d.size)) := by
    obtain ⟨i1, i2, i3, i4, i5, i6, i7⟩ := himage
    exact ⟨i1, i2, i3, i4, i5, i6, i7⟩
  have hsize : size (s.swallow t.addr d.addr).mem t.addr = t.size + d.size :=
    (himage'.headers (t.grown d) (by simp)).size_eq
  have hd0 : d.addr ≠ 0 := (h.sound d (by simp)).pos.ne'
  have hcond : ¬ (d.addr = 0 ∨ d.free = false ∨ t.size + d.size < userSizeToChunkSize n) := by
    rw [hd]
    simp only [hd0, Bool.true_eq_false, false_or]
    omega
  refine ⟨?_, himage', hlayout, hf, htold, ?_, ?_⟩
  · simp only [Arena.resize, hn, if_false, hchunk, hmem, hin.size_eq, h.successor_eq.1, hdin.isFree_eq, hdin.size_eq,
      hgt, if_true, hcond, Nat.add_eq_zero_iff, Nat.reduceEqDiff, and_false]
    rw [← hsize]
    rfl
  · rw [Arena.swallow, Arena.recordMerge_usage, Arena.removeChunkFromBin_usage]
    rfl
  · have hremoved := (h₁.unsettle ht).removeSuccessor_keeps .mergeFromCount hd
    have hown : EqOn (s.recordResizeAttempt.removeChunkFromBin d.addr .mergeFromCount).mem
        (s.swallow t.addr d.addr).mem (t.addr + 8) (t.addr + t.size) := by
      show EqOn _ (mergeWithSuccessor _ t.addr) _ _
      rw [h₂.merge_eq hd]
      exact put_eqOn _ _ (.inr (Nat.le_refl _))
    rw [List.singleton_append, liveChunks_cons_live ht] at hremoved
    exact hremoved.trans (List.forall_mem_cons.mpr ⟨hown, h₂.merge_keeps hd⟩)

/-- The chunk sizes that are not the answer to an overflow. -/
theorem need_spec (hn : n < 2 ^ 64) (hlt : userSizeToChunkSize n < 2 ^ 64 - 1) :
    userSizeToChunkSize n % 16 = 0 ∧ 32 ≤ userSizeToChunkSize n := by
  rcases userSizeToChunkSize_spec hn with hmax | ⟨h16, h32, _⟩
  · omega
  · exact ⟨h16, h32⟩

theorem resize_keeps (h : Worked gap s k [] (t :: post) bins) (ht : t.free = false)
    (hq : Quiet ((t :: post) ++ k.rest)) (hn : n ≠ 0) (hn64 : n < 2 ^ 64)
    (hb : s.resizeBreaks (t.addr + 8) n = false) :
    ∃ r s' c post' bins', s.resize (t.addr + 8) n = some (r, s') ∧ Worked gap s' k [] (c :: post') bins' ∧
      Quiet ((c :: post') ++ k.rest) ∧ (c.addr = t.addr ∧ c.free = false ∧ c.size = r + 8) ∧
      liveChunks post' = liveChunks post ∧ (SortedBins bins → SortedBins bins') ∧ s'.usage = s.usage := by
  obtain ⟨hq1, hq2⟩ := quiet_append.mp hq
  have hqpost := (quiet_cons.mp hq1).2
  have hts := (h.sound t (by simp)).size_ge
  have haligned := (h.sound t (by simp)).aligned
  have hlt := h.stop_le t (by simp)
  simp only [stop] at hlt
  have hlive : ∀ c : Tile, c.free = false → ∀ post', Quiet post' → Quiet ((c :: post') ++ k.rest) := by
    intro c hc post' hq'
    exact quiet_append.mpr ⟨quiet_cons.mpr ⟨fun hf => absurd (hc.symm.trans hf) Bool.false_ne_true, hq'⟩, hq2⟩
  by_cases hle : userSizeToChunkSize n ≤ t.size
  · obtain ⟨hn16, hn32⟩ := need_spec hn64 (by omega)
    have h₁ : Worked gap s.recordResizeAttempt k [] (t :: post) bins := h.congr rfl rfl rfl (fun _ => rfl)
    rw [resize_small h hn hle]
    by_cases hcut : userSizeToChunkSize n + 32 ≤ t.size
    · -- the chunk is cut, and no free chunk follows it
      have hhead : ∀ d ∈ post.head?, d.free = false := by
        intro d hd
        cases post with
        | nil => simp at hd
        | cons d' post =>
            obtain rfl : d' = d := by simpa using hd
            by_contra hf
            exact absurd ((resizeBreaks_iff h).mpr ⟨hn, by simpa using hf, .inl hcut⟩) (by simp [hb])
      have h₂ := h₁.unsettle ht
      have hlayout : Layout (k.blocks (t :: setPredFree false post)) := by
        rw [← ht, h₂.told]
        exact h.layout
      obtain ⟨s', hs', hw, hu, -⟩ := resizeShrink_cut h₂.image hlayout (h₂.followed rfl) ht hn32 hn16 hcut
      refine ⟨_, s', _, _, _, hs', hw,
        hlive { t with size := userSizeToChunkSize n, last := false } ht _ ?_, ⟨rfl, ht, ?_⟩, ?_,
        fun hs => hs.rebin _, hu⟩
      · exact quiet_cons.mpr ⟨fun _ => rfl, hqpost.told_true hhead⟩
      · dsimp only
        omega
      · rw [liveChunks_cons_free rfl, liveChunks_setPredFree]
    · refine ⟨_, _, t, post, bins, resizeShrink_keep _ _ hle (by omega),
        h₁.congr rfl rfl rfl (fun _ => rfl), hq, ⟨rfl, ht, by omega⟩, rfl, id, rfl⟩
  · obtain hstuck | ⟨d, post, rfl, hd, hfit⟩ := stuck_or_grows t post (userSizeToChunkSize n)
    · exact ⟨_, _, t, post, bins, resize_stuck h hn (by omega) hstuck, h.congr rfl rfl rfl (fun _ => rfl), hq,
        ⟨rfl, ht, by omega⟩, rfl, id, rfl⟩
    · have hdlt := h.stop_le d (by simp)
      have hda := ((h.followed rfl).next d (by simp)).2
      simp only [stop] at hdlt hda
      obtain ⟨hn16, hn32⟩ := need_spec hn64 (by omega)
      obtain ⟨hres, himage, hlayout, hf, htold, hu, -⟩ := resize_grow h hn ht hd (by omega) hfit
      have hqd := (quiet_cons.mp hqpost).2
      have hlive' : liveChunks (d :: post) = liveChunks post := liveChunks_cons_free hd post
      rw [hres]
      by_cases hcut : userSizeToChunkSize n + 32 ≤ t.size + d.size
      · have hhead : ∀ e ∈ post.head?, e.free = false := by
          obtain ⟨_, _, _, _, _, _, _, _, hrun⟩ := h.layout.run
          exact hqd.head_live (hd ▸ hrun.head_predFree)
        obtain ⟨s', hs', hw, hu', -⟩ := resizeShrink_cut himage hlayout hf ht hn32 hn16 hcut
        refine ⟨_, s', _, _, _, hs', hw,
          hlive { t.grown d with size := userSizeToChunkSize n, last := false } ht _ ?_, ⟨rfl, ht, ?_⟩, ?_,
          fun hs => (hs.unbin _).rebin _, hu'.trans hu⟩
        · exact quiet_cons.mpr ⟨fun _ => rfl, hqd.told_true hhead⟩
        · dsimp only
          omega
        · rw [hlive', liveChunks_cons_free rfl, liveChunks_setPredFree]
      · -- all of the successor is used, and it was the last chunk
        have hnil : post = [] := by
          by_contra hne
          exact absurd ((resizeBreaks_iff h).mpr ⟨hn, hd, .inr ⟨by omega, hfit, by omega, hne⟩⟩) (by simp [hb])
        subst hnil
        have hw : Worked gap (s.swallow t.addr d.addr) k [t.grown d] [] (unbin bins (d.addr, d.size)) :=
          ⟨hlayout, himage⟩
        refine ⟨_, _, t.grown d, [], unbin bins (d.addr, d.size), resizeShrink_keep _ _ hfit (by omega), ?_,
          hlive (t.grown d) ht _ hqd, ⟨rfl, ht, ?_⟩,
          hlive'.symm, fun hs => hs.unbin _, hu⟩
        · exact (@Worked.settle gap _ k [] _ _ _ hw ht).congr rfl rfl rfl (fun _ => rfl)
        · dsimp only [grown]
          omega

end Resize

section Breaks

/-- Two neighbours are free: the layout is there, but it is not coalesced. -/
theorem not_invariant_of_not_quiet (hs : Holds gap s h) (hq : ¬ Quiet h.tiles) : ¬ HeapInvariant s := by
  rintro ⟨h', hv', hc', hs'⟩
  have hb := hs.stores.unique hs' hs.valid hv'
  refine hq (hs.valid.coalesced_iff.mp ?_)
  intro b hbm
  exact hc' b (hb ▸ hbm)

/-- A chunk is told that its predecessor is free, but it is in use. -/
theorem not_invariant_of_stale (himage : Image gap s k.extents [t] (d :: post ++ k.rest) bins)
    (hlayout : Layout (k.blocks (t :: setPredFree false (d :: post)))) (ht : t.free = false)
    (hd : d.predFree = true) : ¬ HeapInvariant s := by
  rintro ⟨h', hv', _, hs'⟩
  have hext : h'.extents = k.extents := hs'.chain.unique himage.chain
  obtain ⟨b, hb, hbe⟩ : ∃ b ∈ h'.blocks, b.extent = (k.base, k.size) := by
    have hm : (k.base, k.size) ∈ h'.extents := by rw [hext, Spot.extents]; simp
    exact List.mem_map.mp hm
  have hbase : b.base = k.base := congrArg Prod.fst hbe
  have hblock : (⟨k.base, k.size, k.pre ++ t :: setPredFree false (d :: post)⟩ : Block) ∈
      k.blocks (t :: setPredFree false (d :: post)) := by simp [Spot.blocks]
  have hours := hlayout.tiled _ hblock
  -- the chunks in the memory are those, up to what they are told
  obtain ⟨a, hpre, hpost⟩ := abut_append.mp hours.abut
  have habut : Abut b.start (k.pre ++ t :: d :: post) (k.base + k.size) := by
    rw [Block.start, hbase]
    exact abut_append.mpr ⟨a, hpre, hpost.1, (abut_setPredFree false).mp hpost.2⟩
  have hlast : LastOnly (k.pre ++ t :: d :: post) := by
    obtain ⟨h1, h2, h3⟩ := (lastOnly_append (by simp)).mp hours.last
    exact (lastOnly_append (by simp)).mpr ⟨h1, h2, (lastOnly_setPredFree false).mp h3⟩
  have hheaders : ∀ u ∈ k.pre ++ t :: d :: post, u.In s.mem := by
    intro u hu
    refine himage.headers u ?_
    simp only [Spot.rest, List.mem_append, List.mem_cons] at hu ⊢
    tauto
  have htiled := hv'.layout.tiled b hb
  have htiles : b.tiles = k.pre ++ t :: d :: post :=
    @tiles_unique s.mem _ _ _ _ _ htiled.abut habut htiled.nonempty (by simp) htiled.last hlast
      (fun u hu => hs'.headers u (List.mem_flatMap.mpr ⟨b, hb, hu⟩)) hheaders
  obtain ⟨q, hrun⟩ := htiled.run
  rw [htiles] at hrun
  obtain ⟨_, _, _, _, _, _, hdp, _⟩ := run_append.mp hrun
  rw [ht, hd] at hdp
  exact absurd hdp (by decide)

theorem resize_breaks (h : Worked gap s k [] (t :: post) bins) (ht : t.free = false) (hn64 : n < 2 ^ 64)
    (hb : s.resizeBreaks (t.addr + 8) n = true) :
    ∃ r s', s.resize (t.addr + 8) n = some (r, s') ∧ ¬ HeapInvariant s' := by
  cases post with
  | nil =>
      rw [resizeBreaks_nil h] at hb
      exact absurd hb (by decide)
  | cons d post =>
      obtain ⟨hn, hd, hcase⟩ := (resizeBreaks_iff h).mp hb
      have hlt := h.stop_le t (by simp)
      have hpos := (h.sound t (by simp)).pos
      simp only [stop] at hlt
      rcases hcase with hcut | ⟨hgt, hfit, hkeep, hne⟩
      · obtain ⟨hn16, hn32⟩ := need_spec hn64 (by omega)
        have h₁ : Worked gap s.recordResizeAttempt k [] (t :: d :: post) bins := h.congr rfl rfl rfl (fun _ => rfl)
        have h₂ := h₁.unsettle ht
        have hlayout : Layout (k.blocks (t :: setPredFree false (d :: post))) := by
          rw [← ht, h₂.told]
          exact h.layout
        obtain ⟨s', hs', hw, _⟩ := resizeShrink_cut h₂.image hlayout (h₂.followed rfl) ht hn32 hn16 hcut
        rw [resize_small h hn (by omega)]
        refine ⟨_, s', hs', not_invariant_of_not_quiet hw.holds fun hq => ?_⟩
        -- the chunk that follows is free and told that its predecessor is
        have hqd := hq.perm hw.tiles_perm { d with predFree := true } (by simp [setPredFree]) hd
        exact absurd hqd (by simp)
      · obtain ⟨hres, himage, hlayout, _, htold, _⟩ := resize_grow h hn ht hd hgt hfit
        rw [hres]
        refine ⟨_, _, resizeShrink_keep _ _ hfit hkeep, ?_⟩
        cases post with
        | nil => exact absurd rfl hne
        | cons e post =>
            have he : e.predFree = true := by
              have : ({ e with predFree := true } : Tile) = e := by
                simpa [setPredFree] using htold
              rw [← this]
            obtain ⟨i1, i2, i3, i4, i5, i6, i7⟩ := himage
            exact not_invariant_of_stale ⟨i1, i2, i3, i4, i5, i6, i7⟩ hlayout ht he

/-- `resize` keeps the heap invariant exactly where it does not break it in one of
the two known ways. -/
theorem resize_invariant_iff (hv : h.Valid) (hc : h.Coalesced) (hs : s.Stores h) (htm : t ∈ h.tiles)
    (ht : t.free = false) (hn : n < 2 ^ 64) :
    ∃ r s', s.resize (t.addr + 8) n = some (r, s') ∧
      (HeapInvariant s' ↔ s.resizeBreaks (t.addr + 8) n = false) := by
  have hholds := hs.holds hv
  obtain ⟨k, post, hb, hw⟩ := hholds.exists_worked htm
  have hperm : h.tiles.Perm ((t :: post) ++ k.rest) := by
    rw [Heap.tiles, hb]
    exact k.tiles_perm _
  have hq := (hv.coalesced_iff.mp hc).perm hperm
  have hinv {gap : Nat → UInt64} {s' : Arena} {k' : Spot} {ts' : List Tile} {bins' : Nat → List (Nat × Nat)}
      (hw' : Worked gap s' k' [] ts' bins') (hq' : Quiet (ts' ++ k'.rest)) : HeapInvariant s' :=
    ⟨_, hw'.holds.valid, hw'.holds.valid.coalesced_iff.mpr (hq'.perm hw'.tiles_perm.symm), hw'.holds.stores⟩
  by_cases hn0 : n = 0
  · subst hn0
    obtain ⟨s', k', ts', bins', hfree, hw', _, hq', _⟩ := free_spec hw ht hq
    have hno : s.resizeBreaks (t.addr + 8) 0 = false := rfl
    exact ⟨0, s', by simp [Arena.resize, hfree], ⟨fun _ => hno, fun _ => hinv hw' hq'⟩⟩
  cases hbreaks : s.resizeBreaks (t.addr + 8) n with
  | false =>
      obtain ⟨r, s', c, post', bins', hres, hw', hq', _⟩ := resize_keeps hw ht hq hn0 hn hbreaks
      exact ⟨r, s', hres, ⟨fun _ => rfl, fun _ => hinv hw' hq'⟩⟩
  | true =>
      obtain ⟨r, s', hres, hbad⟩ := resize_breaks hw ht hn hbreaks
      exact ⟨r, s', hres, ⟨fun hgood => absurd hgood hbad, fun hno => absurd hno (by decide)⟩⟩

/-- A chunk in use, a free chunk, and another chunk in use. -/
def usedFreeUsed : List Block :=
  [⟨4096, 216, [⟨4120, 96, false, false, false⟩, ⟨4216, 64, true, false, false⟩, ⟨4280, 32, false, true, true⟩]⟩]

theorem usedFreeUsed_layout : Layout usedFreeUsed := by decide

/-- Asking for as much as the chunk has. -/
theorem resize_invariant_iff_same :
    ∃ s r s', Arena.resize s 4128 88 = some (r, s') ∧ (HeapInvariant s' ↔ s.resizeBreaks 4128 88 = false) := by
  obtain ⟨s, h, hb, hv, _, hs⟩ := usedFreeUsed_layout.realised
  have htiles : h.tiles = usedFreeUsed.flatMap Block.tiles := by rw [Heap.tiles, hb]
  have hc : h.Coalesced := hv.coalesced_iff.mpr (by rw [htiles]; decide)
  have htm : ⟨4120, 96, false, false, false⟩ ∈ h.tiles := by rw [htiles]; decide
  have hres := resize_invariant_iff hv hc hs htm rfl (show 88 < 2 ^ 64 by decide)
  exact ⟨s, hres⟩

/-- Shrinking the first chunk to the minimum leaves two free neighbours. -/
theorem resize_not_invariant :
    ¬ ∀ (s : Arena) (h : Heap) (t : Tile) (n : Nat), h.Valid → h.Coalesced → s.Stores h → t ∈ h.tiles →
      t.free = false → n < 2 ^ 64 → ∃ r s', s.resize (t.addr + 8) n = some (r, s') ∧ HeapInvariant s' := by
  intro hall
  obtain ⟨s, h, hb, hv, _, hs⟩ := usedFreeUsed_layout.realised
  have htiles : h.tiles = usedFreeUsed.flatMap Block.tiles := by rw [Heap.tiles, hb]
  have hc : h.Coalesced := hv.coalesced_iff.mpr (by rw [htiles]; decide)
  have htm : ⟨4120, 96, false, false, false⟩ ∈ h.tiles := by rw [htiles]; decide
  have hw := @Holds.worked _ s ⟨[], 4096, 216, [], []⟩
    [⟨4120, 96, false, false, false⟩, ⟨4216, 64, true, false, false⟩, ⟨4280, 32, false, true, true⟩] h (hs.holds hv) hb
  have hneed : userSizeToChunkSize 8 = 32 := by decide
  have hbreaks := (resizeBreaks_iff hw).mpr ⟨(by decide : 8 ≠ 0), rfl, .inl (by rw [hneed]; decide)⟩
  obtain ⟨r, s', hres, hgood⟩ := hall s h _ 8 hv hc hs htm rfl (by decide)
  obtain ⟨r', s'', hres', hbad⟩ := resize_breaks hw rfl (by decide) hbreaks
  rw [hres'] at hres
  obtain ⟨_, rfl⟩ := Prod.mk.inj (Option.some.inj hres)
  exact hbad hgood

end Breaks

end XviOs.Allocator
