import XviOs.Allocator.Image

namespace XviOs.Allocator

open Library.LittleEndian Chunk Tile SizeClass BinList

/-- The arena in the middle of an operation at the place `k`: the chunks `mid`
there are being worked on, and `post` follow them in their block. -/
structure Worked (gap : Nat → UInt64) (s : Arena) (k : Spot) (mid post : List Tile)
    (bins : Nat → List (Nat × Nat)) : Prop where
  layout : Layout (k.blocks (mid ++ post))
  image : Image gap s k.extents mid (post ++ k.rest) bins

variable {gap : Nat → UInt64} {s : Arena} {k : Spot} {mid post old new : List Tile}
  {bins : Nat → List (Nat × Nat)} {t d : Tile} {m' : Mem} {lo hi : Nat} {f : Bool}

namespace Worked

theorem mem_header (h : Worked gap s k mid post bins) (ht : t ∈ mid ++ post) : t.In s.mem := by
  refine h.image.headers t ?_
  rcases List.mem_append.mp ht with ht | ht <;> simp [ht]

theorem sound (h : Worked gap s k mid post bins) (t : Tile) (ht : t ∈ mid ++ post) : t.Sound := by
  refine h.image.placed.sound t ?_
  rcases List.mem_append.mp ht with ht | ht <;> simp [ht]

theorem stop_le (h : Worked gap s k mid post bins) (t : Tile) (ht : t ∈ mid ++ post) : t.stop ≤ 2 ^ 64 := by
  refine h.image.placed.bound t ?_
  rcases List.mem_append.mp ht with ht | ht <;> simp [ht]

theorem head_addr (h : Worked gap s k [t] post bins) : ∀ d ∈ post.head?, d.addr = t.stop := by
  obtain ⟨p, a, q, _, _, _, h2⟩ := h.layout.run
  exact h2.head_addr

theorem followed {us : List Tile} (h : Worked gap s k mid post bins) (hm : mid ++ post = t :: us) :
    Followed s.mem t us := by
  have hlast := h.layout.lastOnly (by simp [hm])
  obtain ⟨p, a, q, _, h2⟩ := h.layout.run
  rw [hm] at hlast h2
  refine ⟨hlast.1, fun d hd => ⟨h.mem_header ?_, h2.2.2.head_addr d hd⟩⟩
  rw [hm]
  exact List.mem_cons_of_mem t (List.mem_of_mem_head? hd)

/-- No other chunk is where `t` is. -/
theorem addr_ne {u : Tile} (h : Worked gap s k [] (t :: post) bins) (hu : u ∈ post ++ k.rest) : u.addr ≠ t.addr := by
  intro he
  have hp := h.image.placed
  have hap : t.stop ≤ u.addr ∨ u.stop ≤ t.addr := (List.pairwise_cons.mp hp.apart).1 u hu
  have h1 := (hp.sound t (by simp)).size_ge
  have h2 := (hp.sound u (List.mem_cons_of_mem t hu)).size_ge
  simp only [stop] at hap
  omega

/-- The chunk that follows is told whether the chunk is free. -/
theorem told (h : Worked gap s k [t] post bins) : setPredFree t.free post = post := by
  obtain ⟨p, a, q, _, _, _, h2⟩ := h.layout.run
  exact h2.setPredFree_eq

theorem recut (h : Worked gap s k old post bins) (hne : old ≠ []) (hne' : new ≠ []) (ha : Abut lo old hi)
    (hpost : ∀ d ∈ post.head?, d.addr = hi) (he : Effect lo hi post s.mem m') (f : Bool)
    (hrun : ∀ p a q e, Run p a (old ++ post) q e → ∃ q', Run p a (new ++ setPredFree f post) q' e)
    (hlast : LastOnly (old ++ post) → LastOnly (new ++ setPredFree f post)) (hsound : ∀ t ∈ new, t.Sound)
    (hnew : ∀ t ∈ new, t.In m') (hhead : ∀ d ∈ (setPredFree f post).head?, d.In m') :
    Worked gap { s with mem := m' } k new (setPredFree f post) bins := by
  have hlayout : Layout (k.blocks (new ++ setPredFree f post)) := by
    refine h.layout.recut (by simp [hne]) (by simp [hne']) hrun hlast fun t ht => ?_
    rcases List.mem_append.mp ht with ht | ht
    · exact hsound t ht
    · exact setPredFree_sound f (fun u hu => h.sound u (by simp [hu])) t ht
  refine ⟨hlayout, h.image.recut hne ha hpost he f ?_ hnew hhead⟩
  have := hlayout.placed_spot
  rwa [List.append_assoc] at this

/-- Taking the free chunk that follows out of its bin. -/
theorem removeSuccessor (h : Worked gap s k mid (d :: post) bins) (bucket : AccountingBucket) (hd : d.free = true) :
    Worked gap (s.removeChunkFromBin d.addr bucket) k (mid ++ [d]) post (unbin bins (d.addr, d.size)) := by
  refine ⟨?_, ?_⟩
  · have := h.layout
    rwa [← List.append_cons]
  · exact (h.image.remove bucket hd).perm (List.perm_append_singleton d mid).symm (List.Perm.refl _)

theorem removeSuccessor_keeps (h : Worked gap s k mid (d :: post) bins) (bucket : AccountingBucket)
    (hd : d.free = true) :
    KeepsChunks (liveChunks (mid ++ (post ++ k.rest))) s.mem (s.removeChunkFromBin d.addr bucket).mem :=
  h.image.remove_keeps bucket hd

/-- Taking the free chunk before out of its bin. -/
theorem removePredecessor (h : Worked gap s (k.step d) mid post bins) (bucket : AccountingBucket) (hd : d.free = true) :
    Worked gap (s.removeChunkFromBin d.addr bucket) k (d :: mid) post (unbin bins (d.addr, d.size)) := by
  refine ⟨?_, ?_⟩
  · have := h.layout
    rwa [Spot.blocks_step] at this
  · have hp : (post ++ (k.step d).rest).Perm (d :: (post ++ k.rest)) :=
      ((k.rest_step d).append_left post).trans List.perm_middle
    exact (h.image.perm (List.Perm.refl _) hp).remove bucket hd

theorem removePredecessor_keeps (h : Worked gap s (k.step d) mid post bins) (bucket : AccountingBucket)
    (hd : d.free = true) :
    KeepsChunks (liveChunks (mid ++ (post ++ k.rest))) s.mem (s.removeChunkFromBin d.addr bucket).mem := by
  have hp : (post ++ (k.step d).rest).Perm (d :: (post ++ k.rest)) :=
    ((k.rest_step d).append_left post).trans List.perm_middle
  exact (h.image.perm (List.Perm.refl _) hp).remove_keeps bucket hd

theorem insert (h : Worked gap s k (mid ++ [d]) post bins) (hd : d.free = true) (hf : d.Footed s.mem)
    (bucket : Option AccountingBucket) :
    ∃ s', s.addFreeChunk d.addr bucket = some s' ∧ s'.accounting = s.accounting ∧
      Worked gap s' k mid (d :: post) (rebin bins (d.addr, d.size)) ∧
      KeepsChunks (liveChunks (mid ++ (post ++ k.rest))) s.mem s'.mem := by
  have himage := h.image.perm (List.perm_append_singleton d mid) (List.Perm.refl _)
  obtain ⟨s', hs', hacct, hnew, -, hkeeps⟩ := himage.insert hd hf bucket
  refine ⟨s', hs', hacct, ⟨?_, hnew⟩, hkeeps⟩
  rw [List.append_cons]
  exact h.layout

theorem settle (h : Worked gap s k (mid ++ [t]) post bins) (ht : t.free = false) :
    Worked gap s k mid (t :: post) bins := by
  refine ⟨?_, (h.image.perm (List.perm_append_singleton t mid) (List.Perm.refl _)).settle ht⟩
  rw [List.append_cons]
  exact h.layout

theorem unsettle (h : Worked gap s k [] (t :: post) bins) (ht : t.free = false) : Worked gap s k [t] post bins :=
  ⟨h.layout, h.image.unsettle ht⟩

/-- Statistics other than the chunk counts play no part. -/
theorem congr {s' : Arena} (h : Worked gap s k mid post bins) (hm : s'.mem = s.mem) (hb : s'.blocks = s.blocks)
    (hbins : s'.bins = s.bins) (hc : ∀ i, (s'.binAccounting i).chunkCount = (s.binAccounting i).chunkCount) :
    Worked gap s' k mid post bins := by
  obtain ⟨hl, h1, h2, h3, h4, h5, h6, h7⟩ := h
  rw [← hm] at h2 h3 h6
  rw [← hb] at h6
  refine ⟨hl, h1, h2, h3, h4, fun i hi => ?_, h6, fun i hi => (hc i).trans (h7 i hi)⟩
  rw [hm, hbins]
  exact h5 i hi

theorem recordMerge (h : Worked gap s k mid post bins) : Worked gap s.recordMerge k mid post bins :=
  h.congr rfl rfl rfl (fun _ => rfl)

theorem recordSplit (h : Worked gap s k mid post bins) (overhead : Nat) :
    Worked gap (s.recordSplit overhead) k mid post bins :=
  h.congr rfl rfl rfl (fun _ => rfl)

theorem incrementBin (h : Worked gap s k mid post bins) (i : Nat) (bucket : AccountingBucket) :
    Worked gap (s.incrementBin i bucket) k mid post bins :=
  h.congr rfl rfl rfl (fun j => s.incrementBin_chunkCount i j bucket)

end Worked

/-- The arena holds the heap, with the chunk counts of the bins off by `gap`. -/
structure Holds (gap : Nat → UInt64) (s : Arena) (h : Heap) : Prop where
  layout : Layout h.blocks
  image : Image gap s h.extents [] h.tiles h.bins

theorem Holds.congr {h : Heap} {s' : Arena} (hs : Holds gap s h) (hm : s'.mem = s.mem) (hb : s'.blocks = s.blocks)
    (hbins : s'.bins = s.bins) (hc : ∀ i, (s'.binAccounting i).chunkCount = (s.binAccounting i).chunkCount) :
    Holds gap s' h := by
  obtain ⟨hl, h1, h2, h3, h4, h5, h6, h7⟩ := hs
  rw [← hm] at h2 h3 h6
  rw [← hb] at h6
  refine ⟨hl, h1, h2, h3, h4, fun i hi => ?_, h6, fun i hi => (hc i).trans (h7 i hi)⟩
  rw [hm, hbins]
  exact h5 i hi

theorem Worked.holds (h : Worked gap s k [] post bins) : Holds gap s ⟨k.blocks post, bins⟩ := by
  refine ⟨h.layout, ?_⟩
  have := h.image.perm (List.Perm.refl _) (k.tiles_perm post).symm
  rwa [← k.extents_eq post] at this

theorem Holds.worked {h : Heap} (hs : Holds gap s h) (hb : h.blocks = k.blocks post) :
    Worked gap s k [] post h.bins := by
  obtain ⟨hl, hi⟩ := hs
  rw [Heap.tiles, Heap.extents, hb, k.extents_eq post] at hi
  rw [hb] at hl
  exact ⟨hl, hi.perm (List.Perm.refl _) (k.tiles_perm post)⟩

theorem Worked.tiles_perm (_ : Worked gap s k [] post bins) :
    (Heap.tiles ⟨k.blocks post, bins⟩).Perm (post ++ k.rest) :=
  k.tiles_perm post

/-- Any chunk of the heap can be worked on. -/
theorem Holds.exists_worked {h : Heap} (hs : Holds gap s h) (ht : t ∈ h.tiles) :
    ∃ k post, h.blocks = Spot.blocks k (t :: post) ∧ Worked gap s k [] (t :: post) h.bins := by
  obtain ⟨k, post, hb⟩ := Spot.exists_of_mem ht
  exact ⟨k, post, hb, hs.worked hb⟩

end XviOs.Allocator
