import XviOs.Allocator.Failure

namespace XviOs.Allocator

open Library.LittleEndian Chunk SizeClass Tile

/-- The arguments of a `memcpy`. -/
structure Copy where
  destination : Nat
  source : Nat
  count : Nat
  deriving DecidableEq

def Copy.run (c : Copy) (m : Mem) : Mem :=
  fun x => if c.destination ≤ x ∧ x < c.destination + c.count then m (c.source + (x - c.destination)) else m x

namespace Arena

/-- The part of `reallocate` that moves the contents. -/
def reallocateMove (s : Arena) (memory newSize : Nat) : Option ((Nat × Nat) × Option Copy × Arena) := do
  let ((p, userSize), s) ← s.allocate newSize
  if p = 0 then
    return ((0, 0), none, s)
  else if memory = 0 then
    let s ← s.free memory
    return ((p, userSize), none, s)
  else
    let copy : Copy := ⟨p, memory, min userSize newSize⟩
    let s ← { s with mem := copy.run s.mem }.free memory
    return ((p, userSize), some copy, s)

/-- The pointer and the size, the `memcpy` that was made, if one was, and the arena. -/
def reallocate (s : Arena) (memory newSize : Nat) : Option ((Nat × Nat) × Option Copy × Arena) := do
  if newSize = 0 then
    let s ← s.free memory
    return ((0, 0), none, s)
  else if memory = 0 then
    s.reallocateMove memory newSize
  else
    let (resized, s) ← s.resize memory newSize
    if resized ≥ newSize then
      return ((memory, resized), none, s)
    else
      s.reallocateMove memory newSize

/-- The chunk is big enough for the request, or is with the free chunk that follows it. -/
def fitsInPlace (s : Arena) (memory newSize : Nat) : Bool :=
  let chunk := fromDataPointer memory
  newSize ≤ chunkSizeToUserSize (size s.mem chunk) ||
    (isSuccessorFree s.mem chunk &&
      userSizeToChunkSize newSize ≤ size s.mem chunk + size s.mem (successor s.mem chunk))

end Arena

/-- What a client of `reallocate` on the chunk `t` relies on: the contents move with the memory; a failure leaves
them, and the chunk in use; only bytes of the old allocation are read, and only bytes of the new one written; and
the contents of the other chunks in use stay. -/
structure Reallocated (s : Arena) (h : Heap) (t : Tile) (n ptr userSize : Nat) (copy : Option Copy) (s' : Arena) :
    Prop where
  moved : ptr ≠ 0 → n ≤ userSize ∧ ∀ i < min (t.size - 8) n, s'.mem (ptr + i) = s.mem (t.addr + 8 + i)
  failed : ptr = 0 → n ≠ 0 →
    (∃ h' : Heap, h'.Valid ∧ s'.Stores h' ∧ t ∈ h'.tiles) ∧ EqOn s.mem s'.mem (t.addr + 8) t.stop
  within : ∀ c, copy = some c → (t.addr + 8 ≤ c.source ∧ c.source + c.count ≤ t.stop) ∧
    ptr ≤ c.destination ∧ c.destination + c.count ≤ ptr + userSize
  others : ∀ u ∈ h.tiles, u.free = false → u ≠ t → EqOn s.mem s'.mem (u.addr + 8) u.stop

def ReallocateRight (s : Arena) (h : Heap) (t : Tile) (n : Nat) : Prop :=
  ∃ ptr userSize copy s', s.reallocate (t.addr + 8) n = some ((ptr, userSize), copy, s') ∧
    Reallocated s h t n ptr userSize copy s'

/-- The contents have to be moved, and there is a free chunk to move them to. -/
def Relocates (s : Arena) (h : Heap) (t : Tile) (n : Nat) : Prop :=
  n ≠ 0 ∧ s.fitsInPlace (t.addr + 8) n = false ∧ userSizeToChunkSize n < largestBin ∧ h.search n ≠ none

section Reallocate

variable {gap : Nat → UInt64} {s s' : Arena} {k : Spot} {post : List Tile} {h : Heap}
  {bins : Nat → List (Nat × Nat)} {t d : Tile} {n r : Nat}

theorem fitsInPlace_iff (h : Worked gap s k [] (t :: post) bins) : s.fitsInPlace (t.addr + 8) n = true ↔
    n + 8 ≤ t.size ∨ ∃ d ∈ post.head?, d.free = true ∧ userSizeToChunkSize n ≤ t.size + d.size := by
  have hchunk : fromDataPointer (t.addr + 8) = t.addr := rfl
  have hin := h.mem_header (t := t) (by simp)
  have hsize := (h.sound t (by simp)).size_ge
  have huser : n ≤ t.size - 8 ↔ n + 8 ≤ t.size := by omega
  cases post with
  | nil =>
      have hl : t.last = true := (h.layout.lastOnly (by simp)).1
      simp [Arena.fitsInPlace, hchunk, isSuccessorFree, hin.isLast_eq, hl, hin.size_eq, chunkSizeToUserSize,
        chunkOverheadSize, sizeofChunkHeader, huser]
  | cons d post =>
      obtain ⟨hsucc, hl⟩ := h.successor_eq
      have hdin := h.mem_header (t := d) (by simp)
      simp [Arena.fitsInPlace, hchunk, isSuccessorFree, hl, hsucc, hin.size_eq, hdin.isFree_eq, hdin.size_eq,
        chunkSizeToUserSize, chunkOverheadSize, sizeofChunkHeader, huser]

/-- Resizing keeps the contents, as far as they are asked for, and those of the other chunks in use. -/
theorem resize_contents (h : Worked gap s k [] (t :: post) bins) (ht : t.free = false) (hn : n ≠ 0) (hn64 : n < 2 ^ 64) :
    ∃ r s', s.resize (t.addr + 8) n = some (r, s') ∧ (n ≤ r ↔ s.fitsInPlace (t.addr + 8) n = true) ∧
      KeepsChunks ((t.addr, min t.size (n + 8)) :: liveChunks (post ++ k.rest)) s.mem s'.mem := by
  have hsize := (h.sound t (by simp)).size_ge
  have haligned := (h.sound t (by simp)).aligned
  have hlt := h.stop_le t (by simp)
  simp only [stop] at hlt
  have hshort {m m' : Mem} {x : Nat} (hx : min t.size (n + 8) ≤ x)
      (hk : KeepsChunks ((t.addr, x) :: liveChunks (post ++ k.rest)) m m') :
      KeepsChunks ((t.addr, min t.size (n + 8)) :: liveChunks (post ++ k.rest)) m m' := by
    obtain ⟨hown, hothers⟩ := List.forall_mem_cons.mp hk
    refine List.forall_mem_cons.mpr ⟨hown.mono (Nat.le_refl _) ?_, hothers⟩
    exact Nat.add_le_add_left hx t.addr
  by_cases hle : userSizeToChunkSize n ≤ t.size
  · obtain ⟨hn16, hn32⟩ := need_spec hn64 (by omega)
    have hneed := le_userSizeToChunkSize hn64 (by omega)
    have hfits : s.fitsInPlace (t.addr + 8) n = true := (fitsInPlace_iff h).mpr (.inl (by omega))
    have h₁ : Worked gap s.recordResizeAttempt k [] (t :: post) bins := h.congr rfl rfl rfl (fun _ => rfl)
    rw [resize_small h hn hle]
    by_cases hcut : userSizeToChunkSize n + 32 ≤ t.size
    · have h₂ := h₁.unsettle ht
      have hlayout : Layout (k.blocks (t :: setPredFree false post)) := by
        rw [← ht, h₂.told]
        exact h.layout
      obtain ⟨s', hs', -, -, hkeeps⟩ := resizeShrink_cut h₂.image hlayout (h₂.followed rfl) ht hn32 hn16 hcut
      exact ⟨_, s', hs', iff_of_true (by omega) hfits, hshort (by omega) hkeeps⟩
    · exact ⟨_, _, resizeShrink_keep _ _ hle (by omega), iff_of_true (by omega) hfits, .refl _ _⟩
  · obtain hstuck | ⟨d, post, rfl, hd, hfit⟩ := stuck_or_grows t post (userSizeToChunkSize n)
    · refine ⟨_, _, resize_stuck h hn (by omega) hstuck, ?_, .refl _ _⟩
      rw [fitsInPlace_iff h]
      refine ⟨fun hr => .inl (by omega), fun hr => ?_⟩
      rcases hr with hr | ⟨d, hd, hdf, hfit⟩
      · omega
      · rcases hstuck d hd with hdl | hdl
        · exact absurd (hdf.symm.trans hdl) (by decide)
        · omega
    · have hdlt := h.stop_le d (by simp)
      have hda := ((h.followed rfl).next d (by simp)).2
      simp only [stop] at hdlt hda
      obtain ⟨hn16, hn32⟩ := need_spec hn64 (by omega)
      have hneed := le_userSizeToChunkSize hn64 (by omega)
      have hfits : s.fitsInPlace (t.addr + 8) n = true :=
        (fitsInPlace_iff h).mpr (.inr ⟨d, by simp, hd, hfit⟩)
      obtain ⟨hres, himage, hlayout, hf, -, -, hgrown⟩ := resize_grow h hn ht hd (by omega) hfit
      have hlive : liveChunks (d :: post ++ k.rest) = liveChunks (post ++ k.rest) := liveChunks_cons_free hd _
      rw [hlive] at hshort ⊢
      rw [hres]
      by_cases hcut : userSizeToChunkSize n + 32 ≤ t.size + d.size
      · obtain ⟨s', hs', -, -, hkeeps⟩ := resizeShrink_cut himage hlayout hf ht hn32 hn16 hcut
        exact ⟨_, s', hs', iff_of_true (by omega) hfits,
          (hshort (by omega) hgrown).trans (hshort (by omega) hkeeps)⟩
      · exact ⟨_, _, resizeShrink_keep _ _ hfit (by omega), iff_of_true (by omega) hfits,
          hshort (by omega) hgrown⟩

theorem SameButAttempts.holds (hk : SameButAttempts s s') (hs : Holds gap s h) : Holds gap s' h := by
  refine hs.congr hk.mem hk.blocks hk.bins fun i => ?_
  rw [← hk.binAccounting i]

/-- The other chunks in use are among those that are kept. -/
theorem keeps_others {m' : Mem} (hperm : h.tiles.Perm ((t :: post) ++ k.rest))
    (hk : KeepsChunks (liveChunks (post ++ k.rest)) s.mem m')
    {u : Tile} (hu : u ∈ h.tiles) (huf : u.free = false) (hut : u ≠ t) : EqOn s.mem m' (u.addr + 8) u.stop := by
  have hmem := hperm.mem_iff.mp hu
  rw [List.cons_append, List.mem_cons] at hmem
  exact hk _ (mem_liveChunks.mpr ⟨u, hmem.resolve_left hut, huf, rfl⟩)

/-- `reallocate` when the size asked for is not zero. -/
theorem reallocate_eq (t : Tile) (hn : n ≠ 0) (hs : s.resize (t.addr + 8) n = some (r, s')) :
    s.reallocate (t.addr + 8) n =
      if r ≥ n then some ((t.addr + 8, r), none, s') else s'.reallocateMove (t.addr + 8) n := by
  rw [Arena.reallocate, if_neg hn, if_neg (Nat.succ_ne_zero _), hs]
  rfl

theorem reallocate_free (hw : Worked gap s k [] (t :: post) bins) (hperm : h.tiles.Perm ((t :: post) ++ k.rest))
    (ht : t.free = false) (hq : Quiet h.tiles) : ReallocateRight s h t 0 := by
  obtain ⟨s', k', ts', bins', hfree, -, -, -, -, -, -, hkeeps⟩ := free_spec hw ht (hq.perm hperm)
  refine ⟨0, 0, none, s', ?_, fun h0 => absurd rfl h0, fun _ h0 => absurd rfl h0, by simp, ?_⟩
  · rw [Arena.reallocate, if_pos rfl, hfree]
    rfl
  · exact fun u hu huf hut => keeps_others hperm hkeeps hu huf hut

theorem reallocate_inPlace (hw : Worked gap s k [] (t :: post) bins) (hperm : h.tiles.Perm ((t :: post) ++ k.rest))
    (ht : t.free = false) (hn : n ≠ 0) (hn64 : n < 2 ^ 64) (hfits : s.fitsInPlace (t.addr + 8) n = true) :
    ReallocateRight s h t n := by
  have hsize := (hw.sound t (by simp)).size_ge
  obtain ⟨r, s', hres, hle, hkeeps⟩ := resize_contents hw ht hn hn64
  obtain ⟨hown, hothers⟩ := List.forall_mem_cons.mp hkeeps
  refine ⟨t.addr + 8, r, none, s', ?_, ?_, fun h0 => absurd h0 (Nat.succ_ne_zero _), by simp, ?_⟩
  · rw [reallocate_eq t hn hres, if_pos (hle.mpr hfits)]
  · refine fun _ => ⟨hle.mpr hfits, fun i hi => hown _ (Nat.le_add_right _ _) ?_⟩
    dsimp only
    omega
  · exact fun u hu huf hut => keeps_others hperm hothers hu huf hut

theorem reallocate_fails (hs : Holds gap s h) (hw : Worked gap s k [] (t :: post) bins) (htm : t ∈ h.tiles)
    (ht : t.free = false) (hn : n ≠ 0) (hn64 : n < 2 ^ 64) (hfits : s.fitsInPlace (t.addr + 8) n = false)
    (hnone : largestBin ≤ userSizeToChunkSize n ∨ h.search n = none) : ReallocateRight s h t n := by
  obtain ⟨r, s', hres, hle, -⟩ := resize_contents hw ht hn hn64
  have hr : r < n := by
    by_contra hr
    exact absurd (hle.mp (not_lt.mp hr)) (by rw [hfits]; decide)
  have hsame := resize_short hw ht hn64 hres hr
  obtain ⟨s'', halloc, hs'', -, -⟩ := allocate_fail (hsame.holds hs) (.inr hnone)
  have hmem : s''.mem = s.mem := (allocate_null halloc).mem.trans hsame.mem
  refine ⟨0, 0, none, s'', ?_, fun h0 => absurd rfl h0, fun _ _ => ⟨⟨h, hs''.valid, hs''.stores, htm⟩, ?_⟩,
    by simp, fun u _ _ _ => ?_⟩
  · rw [reallocate_eq t hn hres, if_neg (by omega), Arena.reallocateMove, halloc]
    rfl
  · rw [hmem]
    exact .refl _ _ _
  · rw [hmem]
    exact .refl _ _ _

/-- Moving the contents reads behind the end of the old allocation. -/
theorem reallocate_overreads (hs : Holds gap s h) (hw : Worked gap s k [] (t :: post) bins) (hq : Quiet h.tiles)
    (ht : t.free = false) (hn64 : n < 2 ^ 64) (hrel : Relocates s h t n) : ¬ ReallocateRight s h t n := by
  obtain ⟨hn, hfits, hbig, hsome⟩ := hrel
  obtain ⟨r, s', hres, hle, -⟩ := resize_contents hw ht hn hn64
  have hr : r < n := by
    by_contra hr
    exact absurd (hle.mp (not_lt.mp hr)) (by rw [hfits]; decide)
  have hsame := resize_short hw ht hn64 hres hr
  have hshort : t.size < n + 8 := by
    by_contra hlong
    exact absurd ((fitsInPlace_iff hw).mpr (.inl (not_lt.mp hlong))) (by rw [hfits]; decide)
  obtain ⟨x, hx⟩ := Option.ne_none_iff_exists'.mp hsome
  obtain ⟨s'', h', size, halloc, -, -, -, -, hlarge, -⟩ := allocate_found (hsame.holds hs) hq hn hn64 hbig hx
  rintro ⟨ptr, userSize, copy, s₁, hcall, hright⟩
  rw [reallocate_eq t hn hres, if_neg (by omega), Arena.reallocateMove, halloc] at hcall
  simp only [Option.bind_eq_bind, Option.bind_some, if_neg (Nat.succ_ne_zero _)] at hcall
  obtain ⟨s₂, -, hresult⟩ := Option.bind_eq_some_iff.mp hcall
  have hcopy : copy = some ⟨x.1 + 8, t.addr + 8, min (size - 8) n⟩ :=
    (congrArg (fun y => y.2.1) (Option.some.inj hresult)).symm
  have hread := (hright.within _ hcopy).1.2
  simp only [stop] at hread
  omega

/-- `reallocate` does what its clients rely on if and only if it does not have to move the contents to another
chunk: then it copies as many bytes as the new allocation was asked to have. -/
theorem reallocateRight_iff (hv : h.Valid) (hc : h.Coalesced) (hs : s.Stores h) (htm : t ∈ h.tiles)
    (ht : t.free = false) (hn64 : n < 2 ^ 64) : ReallocateRight s h t n ↔ ¬ Relocates s h t n := by
  have hholds := hs.holds hv
  have hq := hv.coalesced_iff.mp hc
  obtain ⟨k, post, hb, hw⟩ := hholds.exists_worked htm
  have hperm : h.tiles.Perm ((t :: post) ++ k.rest) := by
    rw [Heap.tiles, hb]
    exact k.tiles_perm _
  refine ⟨fun hright hrel => reallocate_overreads hholds hw hq ht hn64 hrel hright, fun hrel => ?_⟩
  by_cases hn : n = 0
  · subst hn
    exact reallocate_free hw hperm ht hq
  · cases hfits : s.fitsInPlace (t.addr + 8) n with
    | true => exact reallocate_inPlace hw hperm ht hn hn64 hfits
    | false =>
        refine reallocate_fails hholds hw htm ht hn hn64 hfits ?_
        by_contra hfound
        obtain ⟨hbig, hsome⟩ := not_or.mp hfound
        exact hrel ⟨hn, hfits, not_le.mp hbig, hsome⟩

end Reallocate

theorem reallocateRight_iff_same : ∃ s h, ReallocateRight s h ⟨4120, 96, false, false, false⟩ 88 := by
  obtain ⟨s, h, hb, hv, _, hs⟩ := usedFreeUsed_layout.realised
  have htiles : h.tiles = usedFreeUsed.flatMap Block.tiles := by rw [Heap.tiles, hb]
  have hc : h.Coalesced := hv.coalesced_iff.mpr (by rw [htiles]; decide)
  have htm : ⟨4120, 96, false, false, false⟩ ∈ h.tiles := by rw [htiles]; decide
  have hw := @Holds.worked _ s ⟨[], 4096, 216, [], []⟩
    [⟨4120, 96, false, false, false⟩, ⟨4216, 64, true, false, false⟩, ⟨4280, 32, false, true, true⟩] h (hs.holds hv) hb
  have hfits := (fitsInPlace_iff (n := 88) hw).mpr (.inl (by decide))
  refine ⟨s, h, (reallocateRight_iff hv hc hs htm rfl (by decide)).mpr fun hrel => ?_⟩
  exact absurd (hfits.symm.trans hrel.2.1) (by decide)

/-- Two chunks in use, and a free chunk. -/
def usedUsedFree : List Block :=
  [⟨4096, 184, [⟨4120, 32, false, false, false⟩, ⟨4152, 32, false, false, false⟩, ⟨4184, 96, true, false, true⟩]⟩]

theorem usedUsedFree_layout : Layout usedUsedFree := by decide

/-- Asking for 40 bytes where the first chunk has 24 moves its contents to the free chunk. -/
theorem not_reallocateRight :
    ¬ ∀ (s : Arena) (h : Heap) (t : Tile) (n : Nat), h.Valid → h.Coalesced → s.Stores h → t ∈ h.tiles →
      t.free = false → n < 2 ^ 64 → ReallocateRight s h t n := by
  intro hall
  obtain ⟨s, h, hb, hv, _, hs⟩ := usedUsedFree_layout.realised
  have htiles : h.tiles = usedUsedFree.flatMap Block.tiles := by rw [Heap.tiles, hb]
  have hq : Quiet h.tiles := by rw [htiles]; decide
  have htm : ⟨4120, 32, false, false, false⟩ ∈ h.tiles := by rw [htiles]; decide
  have hw := @Holds.worked _ s ⟨[], 4096, 184, [], []⟩
    [⟨4120, 32, false, false, false⟩, ⟨4152, 32, false, false, false⟩, ⟨4184, 96, true, false, true⟩] h
    (hs.holds hv) hb
  have hfits : s.fitsInPlace (4120 + 8) 40 = false := by
    rw [Bool.eq_false_iff]
    exact fun hfits => absurd ((fitsInPlace_iff hw).mp hfits) (by decide)
  have hsearch : h.search 40 ≠ none := by
    intro hnone
    have hbin : (4184, 96) ∈ h.bins (sizeToBinIndex 96) :=
      (hv.binned.mem _ _).mpr ⟨rfl, by rw [htiles]; decide⟩
    exact absurd (firstFit_none hnone _ _ (by decide) (by decide) hbin) (by decide)
  exact reallocate_overreads (hs.holds hv) hw hq rfl (by decide) ⟨by decide, hfits, by decide, hsearch⟩
    (hall s h _ 40 hv (hv.coalesced_iff.mpr hq) hs htm rfl (by decide))

end XviOs.Allocator
