import XviOs.Allocator.Worked

namespace XviOs.Allocator

open Library.LittleEndian Chunk Tile SizeClass BinList

/-- The arena and its memory say what the heap is: the chunk headers, the footers
of the free chunks, the bin lists and the chain of block headers. -/
structure Arena.Stores (s : Arena) (h : Heap) : Prop where
  headers : ∀ t ∈ h.tiles, t.In s.mem
  footers : ∀ t ∈ h.tiles, t.free = true → t.Footed s.mem
  lists : ∀ i < binCount, ListAt s.mem (s.bins i) ((h.bins i).map Prod.fst)
  chain : BlocksAt s.mem s.blocks h.extents

/-- The chunks of every block tile it, their flags and footers are right, every
free chunk is in its own bin, and no two neighbours are free. -/
def HeapInvariant (s : Arena) : Prop := ∃ h : Heap, h.Valid ∧ h.Coalesced ∧ s.Stores h

variable {gap : Nat → UInt64} {s : Arena} {h h' : Heap} {t u : Tile} {m : Mem} {ts ts' : List Tile}
  {bs bs' : List Block} {a e e' : Nat}

/-- What the chunk counts of the bins are off by. -/
def Arena.countGap (s : Arena) (h : Heap) (i : Nat) : UInt64 :=
  (s.binAccounting i).chunkCount - UInt64.ofNat (h.bins i).length

theorem Arena.Stores.holds (hs : s.Stores h) (hv : h.Valid) : Holds (s.countGap h) s h := by
  refine ⟨hv.layout, hv.layout.placed_tiles, hs.headers, hs.footers, hv.binned, hs.lists, hs.chain, fun i _ => ?_⟩
  rw [Arena.countGap]
  grind

theorem Holds.valid (hs : Holds gap s h) : h.Valid := ⟨hs.layout, hs.image.binned⟩

theorem Holds.stores (hs : Holds gap s h) : s.Stores h :=
  ⟨hs.image.headers, hs.image.footers, hs.image.lists, hs.image.chain⟩

theorem Heap.Valid.coalesced_iff (hv : h.Valid) : h.Coalesced ↔ Quiet h.tiles := hv.layout.coalesced_iff

section Unique

/-- A header determines its tile. -/
theorem Tile.In.ext (ht : t.In m) (hu : u.In m) (ha : t.addr = u.addr) : t = u := by
  have hs : t.size = u.size := by rw [← ht.size_eq, ← hu.size_eq, ha]
  have hf : t.free = u.free := by rw [← ht.isFree_eq, ← hu.isFree_eq, ha]
  have hp : t.predFree = u.predFree := by rw [← ht.isPredecessorFree_eq, ← hu.isPredecessorFree_eq, ha]
  have hl : t.last = u.last := by rw [← ht.isLast_eq, ← hu.isLast_eq, ha]
  cases t
  cases u
  simp_all

/-- The headers in the memory determine how a block is tiled. -/
theorem tiles_unique (h : Abut a ts e) (h' : Abut a ts' e') (hne : ts ≠ []) (hne' : ts' ≠ [])
    (hl : LastOnly ts) (hl' : LastOnly ts') (hm : ∀ t ∈ ts, t.In m) (hm' : ∀ t ∈ ts', t.In m) : ts = ts' := by
  induction ts generalizing a ts' with
  | nil => exact absurd rfl hne
  | cons t ts ih =>
      cases ts' with
      | nil => exact absurd rfl hne'
      | cons t' ts' =>
          obtain rfl : t = t' := (hm t (by simp)).ext (hm' t' (by simp)) (h.1.trans h'.1.symm)
          have hempty : ts.isEmpty = ts'.isEmpty := hl.1.symm.trans hl'.1
          by_cases hts : ts = []
          · subst hts
            rw [List.isEmpty_iff.mp hempty.symm]
          · have hts' : ts' ≠ [] := by
              rintro rfl
              exact hts (List.isEmpty_iff.mp hempty)
            rw [ih h.2 h'.2 hts hts' hl.2 hl'.2 (fun u hu => hm u (by simp [hu]))
              (fun u hu => hm' u (by simp [hu]))]

theorem blocks_unique (he : bs.map Block.extent = bs'.map Block.extent)
    (hb : ∀ b ∈ bs, ∀ b' ∈ bs', b.extent = b'.extent → b = b') : bs = bs' := by
  induction bs generalizing bs' with
  | nil => simpa [eq_comm] using he
  | cons b bs ih =>
      cases bs' with
      | nil => simp at he
      | cons b' bs' =>
          rw [List.map_cons, List.map_cons, List.cons.injEq] at he
          rw [hb b (by simp) b' (by simp) he.1,
            ih he.2 (fun c hc c' hc' => hb c (by simp [hc]) c' (by simp [hc']))]

/-- The memory of an arena determines its layout. -/
theorem Arena.Stores.unique (hs : s.Stores h) (hs' : s.Stores h') (hv : h.Valid) (hv' : h'.Valid) :
    h.blocks = h'.blocks := by
  have hext : h.extents = h'.extents := hs.chain.unique hs'.chain
  refine blocks_unique hext fun b hb b' hb' he => ?_
  have hbase : b.base = b'.base := congrArg Prod.fst he
  have hsize : b.size = b'.size := congrArg Prod.snd he
  have ht := hv.layout.tiled b hb
  have ht' := hv'.layout.tiled b' hb'
  have hstart : b.start = b'.start := by rw [Block.start, Block.start, hbase]
  have htiles : b.tiles = b'.tiles := by
    refine @tiles_unique s.mem _ _ _ _ _ ht.abut (hstart ▸ ht'.abut) ht.nonempty ht'.nonempty ht.last ht'.last ?_ ?_
    · exact fun t htb => hs.headers t (List.mem_flatMap.mpr ⟨b, hb, htb⟩)
    · exact fun t htb => hs'.headers t (List.mem_flatMap.mpr ⟨b', hb', htb⟩)
  cases b
  cases b'
  simp_all

end Unique

end XviOs.Allocator

namespace XviOs.Allocator

open Library.LittleEndian Chunk Tile SizeClass BinList

variable {gap : Nat → UInt64} {s : Arena} {es : List (Nat × Nat)} {fs mid outer ts : List Tile}
  {bins : Nat → List (Nat × Nat)} {bs : List Block} {m : Mem}

/-- The header and the footer of a tile. -/
def tileWords (t : Tile) : List (Nat × Nat) := [(t.addr, t.word), (t.stop - 8, t.size)]

/-- The block headers, each with the pointer to the next. -/
def blockWords : List (Nat × Nat) → List (Nat × Nat)
  | [] => []
  | e :: es => (e.1, e.2) :: (e.1 + 16, (es.map Prod.fst).headD 0) :: blockWords es

theorem mem_blockWords {c : Nat × Nat} (h : c ∈ blockWords es) :
    ∃ e ∈ es, (c = (e.1, e.2)) ∨ (c.1 = e.1 + 16 ∧ (c.2 = 0 ∨ ∃ e' ∈ es, c.2 = e'.1)) := by
  induction es with
  | nil => simp [blockWords] at h
  | cons e es ih =>
      rcases List.mem_cons.mp h with rfl | h
      · exact ⟨e, by simp, .inl rfl⟩
      rcases List.mem_cons.mp h with rfl | h
      · refine ⟨e, by simp, .inr ⟨rfl, ?_⟩⟩
        cases es with
        | nil => exact .inl rfl
        | cons e' es => exact .inr ⟨e', by simp, rfl⟩
      · obtain ⟨e', he', h'⟩ := ih h
        refine ⟨e', by simp [he'], h'.imp id fun h'' => ⟨h''.1, h''.2.imp id ?_⟩⟩
        rintro ⟨e'', he'', h3⟩
        exact ⟨e'', by simp [he''], h3⟩

/-- Block headers that hold their words are chained. -/
theorem blocksAt_of_words (hpos : ∀ e ∈ es, 0 < e.1) (h : ∀ c ∈ blockWords es, read64 m c.1 = c.2) :
    BlocksAt m ((es.map Prod.fst).headD 0) es := by
  induction es with
  | nil => rfl
  | cons e es ih =>
      have hsize : read64 m e.1 = e.2 := h (e.1, e.2) (by simp [blockWords])
      have hnext : read64 m (e.1 + 16) = (es.map Prod.fst).headD 0 :=
        h (e.1 + 16, (es.map Prod.fst).headD 0) (by simp [blockWords])
      refine ⟨rfl, (hpos e (by simp)).ne', hsize, ?_⟩
      rw [hnext]
      exact ih (fun e' he' => hpos e' (by simp [he'])) fun c hc => h c (by simp [blockWords, hc])

theorem blockWords_pairwise (h : es.Pairwise (fun e e' => e.1 + 24 ≤ e'.1 ∨ e'.1 + 24 ≤ e.1)) :
    (blockWords es).Pairwise (fun c d => c.1 + 8 ≤ d.1 ∨ d.1 + 8 ≤ c.1) := by
  induction es with
  | nil => exact List.Pairwise.nil
  | cons e es ih =>
      obtain ⟨he, ht⟩ := List.pairwise_cons.mp h
      have hout : ∀ c ∈ blockWords es, e.1 + 24 ≤ c.1 ∨ c.1 + 8 ≤ e.1 := by
        intro c hc
        obtain ⟨e', he', h' | ⟨h', _⟩⟩ := mem_blockWords hc
        · have := he e' he'
          rw [h']
          dsimp only
          omega
        · have := he e' he'
          omega
      refine List.pairwise_cons.mpr ⟨fun c hc => ?_, List.pairwise_cons.mpr ⟨fun c hc => ?_, ih ht⟩⟩
      · rcases List.mem_cons.mp hc with rfl | hc
        · exact .inl (by dsimp only; omega)
        · have := hout c hc
          dsimp only
          omega
      · have := hout c hc
        dsimp only
        omega

theorem tileWords_pairwise (h : Placed es ts) :
    (ts.flatMap tileWords).Pairwise (fun c d => c.1 + 8 ≤ d.1 ∨ d.1 + 8 ≤ c.1) := by
  refine List.pairwise_flatMap.mpr ⟨fun t ht => ?_, h.apart.imp_of_mem fun {t u} ht hu hap c hc d hd => ?_⟩
  · have := (h.sound t ht).size_ge
    simp only [tileWords, List.pairwise_cons, List.mem_singleton, forall_eq, stop]
    exact ⟨.inl (by omega), by simp⟩
  · have h1 := (h.sound t ht).size_ge
    have h2 := (h.sound u hu).size_ge
    have hap' : t.addr + t.size ≤ u.addr ∨ u.addr + u.size ≤ t.addr := hap
    simp only [tileWords, List.mem_cons, List.not_mem_nil, or_false] at hc hd
    rcases hc with rfl | rfl <;> rcases hd with rfl | rfl <;> simp only [stop] <;> omega

/-- Putting all of the free chunks `fs` into their bins. -/
theorem Image.insertAll (h : Image gap s es (fs ++ mid) outer bins) (hf : ∀ t ∈ fs, t.free = true ∧ t.Footed s.mem)
    (hs : SortedBins bins) :
    ∃ s' bins', Image gap s' es mid (fs ++ outer) bins' ∧ SortedBins bins' := by
  induction fs generalizing s outer bins with
  | nil => exact ⟨s, bins, h, hs⟩
  | cons d fs ih =>
      obtain ⟨hdf, hdfoot⟩ := hf d (by simp)
      obtain ⟨s₁, _, _, h₁, hkeep, _⟩ := h.insert hdf hdfoot none
      have hf₁ : ∀ t ∈ fs, t.free = true ∧ t.Footed s₁.mem := fun t ht =>
        ⟨(hf t (by simp [ht])).1, hkeep t (by simp [ht]) (hf t (by simp [ht])).2⟩
      obtain ⟨s', bins', h', hs'⟩ := ih h₁ hf₁ (hs.rebin _)
      exact ⟨s', bins', h'.perm (List.Perm.refl _) List.perm_middle, hs'⟩

/-- The words of the tiles and of the block headers of a layout. -/
def layoutWords (bs : List Block) : List (Nat × Nat) :=
  (bs.flatMap Block.tiles).flatMap tileWords ++ blockWords (bs.map Block.extent)

theorem Layout.extent_bounds (hl : Layout bs) :
    ∀ e ∈ bs.map Block.extent, 0 < e.1 ∧ e.1 < 2 ^ 64 ∧ e.2 < 2 ^ 64 := by
  intro e he
  obtain ⟨b, hb, rfl⟩ := List.mem_map.mp he
  obtain ⟨h1, _, h2⟩ := hl.placed b hb
  have h3 := (hl.tiled b hb).abut.le
  simp only [Block.start, Block.stop] at h2 h3
  exact ⟨h1, show b.base < 2 ^ 64 by omega, show b.size < 2 ^ 64 by omega⟩

theorem Layout.words_pairwise (hl : Layout bs) :
    (layoutWords bs).Pairwise (fun c d => c.1 + 8 ≤ d.1 ∨ d.1 + 8 ≤ c.1) := by
  have hp := hl.placed_tiles
  refine List.pairwise_append.mpr ⟨tileWords_pairwise hp, blockWords_pairwise ?_, fun c hc d hd => ?_⟩
  · rw [List.pairwise_map]
    refine hl.apart.imp_of_mem fun {b c} hb hc hbc => ?_
    have h1 := (hl.tiled b hb).abut.le
    have h2 := (hl.tiled c hc).abut.le
    have hbc' : b.base + b.size ≤ c.base ∨ c.base + c.size ≤ b.base := hbc
    simp only [Block.start, Block.stop, Block.extent] at h1 h2 ⊢
    omega
  · obtain ⟨t, ht, hct⟩ := List.mem_flatMap.mp hc
    have hsize := (hp.sound t ht).size_ge
    have hclear : ∀ e ∈ bs.map Block.extent, e.1 + 24 ≤ t.addr ∨ t.addr + t.size ≤ e.1 :=
      fun e he => hp.clear e he t ht
    simp only [tileWords, List.mem_cons, List.not_mem_nil, or_false] at hct
    obtain ⟨e, he, hd'⟩ := mem_blockWords hd
    have hce := hclear e he
    have hd1 : d.1 = e.1 ∨ d.1 = e.1 + 16 := hd'.imp (congrArg Prod.fst) And.left
    rcases hct with rfl | rfl <;> simp only [stop] <;> omega

theorem Layout.words_lt (hl : Layout bs) : ∀ c ∈ layoutWords bs, c.2 < 2 ^ 64 := by
  have hp := hl.placed_tiles
  have he := hl.extent_bounds
  intro c hc
  rcases List.mem_append.mp hc with hc | hc
  · obtain ⟨t, ht, hct⟩ := List.mem_flatMap.mp hc
    have hs := hp.sound t ht
    have hb := hp.bound t ht
    have hpos := hs.pos
    simp only [stop] at hb
    have hlt : t.size < 2 ^ 64 := by omega
    simp only [tileWords, List.mem_cons, List.not_mem_nil, or_false] at hct
    rcases hct with rfl | rfl
    · exact word_lt hs.size_mod hlt
    · exact hlt
  · obtain ⟨e, hem, rfl | ⟨_, h0 | ⟨e', he', h0⟩⟩⟩ := mem_blockWords hc
    · exact (he e hem).2.2
    · rw [h0]
      exact Nat.two_pow_pos 64
    · rw [h0]
      exact (he e' he').2.1

/-- Every layout is that of some arena. -/
theorem Layout.realised (hl : Layout bs) : ∃ s h, h.blocks = bs ∧ h.Valid ∧ h.Sorted ∧ Arena.Stores s h := by
  obtain ⟨m, hm⟩ : ∃ m, ∀ c ∈ layoutWords bs, read64 m c.1 = c.2 :=
    ⟨storeWords (layoutWords bs) (fun _ => 0), read64_storeWords hl.words_pairwise hl.words_lt⟩
  have hp := hl.placed_tiles
  have hwords (t : Tile) (ht : t ∈ bs.flatMap Block.tiles) : t.In m ∧ t.Footed m := by
    have hmem (c : Nat × Nat) (hc : c ∈ tileWords t) : c ∈ layoutWords bs :=
      List.mem_append_left _ (List.mem_flatMap.mpr ⟨t, ht, hc⟩)
    exact ⟨⟨hm (t.addr, t.word) (hmem _ (by simp [tileWords])), (hp.sound t ht).size_mod⟩,
      hm (t.stop - 8, t.size) (hmem _ (by simp [tileWords]))⟩
  have hchain : BlocksAt m (((bs.map Block.extent).map Prod.fst).headD 0) (bs.map Block.extent) :=
    blocksAt_of_words (fun e he => (hl.extent_bounds e he).1) fun c hc => hm c (List.mem_append_right _ hc)
  -- all bins are empty at first
  obtain ⟨fs, hfs⟩ : ∃ fs, fs = (bs.flatMap Block.tiles).filter Tile.free := ⟨_, rfl⟩
  obtain ⟨ls, hls⟩ : ∃ ls, ls = (bs.flatMap Block.tiles).filter (fun t => !t.free) := ⟨_, rfl⟩
  have hperm : (fs ++ ls).Perm (bs.flatMap Block.tiles) := by
    rw [hfs, hls]
    exact List.filter_append_perm Tile.free _
  have hlive : freeChunks ls = [] := by
    rw [freeChunks, hls, List.filter_filter]
    simp
  have himage : Image (fun _ => 0) ⟨m, ((bs.map Block.extent).map Prod.fst).headD 0, fun _ => 0, {}, fun _ => {}⟩
      (bs.map Block.extent) fs ls (fun _ => []) := by
    refine ⟨hp.perm hperm.symm, fun t ht => (hwords t (hperm.mem_iff.mp ht)).1, fun t ht hf => ?_, ?_,
      fun _ _ => rfl, hchain, fun _ _ => rfl⟩
    · exact (hwords t (hperm.mem_iff.mp (by simp [ht]))).2
    · rw [hlive]
      exact ⟨by simp, by simp⟩
  have hfree : ∀ t ∈ fs, t.free = true ∧ t.Footed m := fun t ht =>
    ⟨by rw [hfs] at ht; exact (List.mem_filter.mp ht).2, (hwords t (hperm.mem_iff.mp (by simp [ht]))).2⟩
  rw [← List.append_nil fs] at himage
  obtain ⟨s, bins, himage', hsorted⟩ := himage.insertAll hfree (fun _ => List.Pairwise.nil)
  have hholds : Holds (fun _ => 0) s ⟨bs, bins⟩ := ⟨hl, himage'.perm (List.Perm.refl _) hperm⟩
  exact ⟨s, ⟨bs, bins⟩, rfl, hholds.valid, hsorted, hholds.stores⟩

end XviOs.Allocator
