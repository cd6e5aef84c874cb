import XviOs.Allocator.AddBlock

namespace XviOs.Allocator

open Library.LittleEndian Library.Bits Chunk Tile SizeClass BinList

/-- The arena holds the heap in the regions `es`. A region may end in up to seven bytes
that are no part of its block. -/
structure Arena.StoresIn (s : Arena) (es : List (Nat × Nat)) (h : Heap) : Prop where
  headers : ∀ t ∈ h.tiles, t.In s.mem
  footers : ∀ t ∈ h.tiles, t.free = true → t.Footed s.mem
  lists : ∀ i < binCount, ListAt s.mem (s.bins i) ((h.bins i).map Prod.fst)
  chain : BlocksAt s.mem s.blocks es
  rounded : h.extents = es.map roundedExtent

/-- The heap invariant of an arena whose regions may have any sizes. -/
def RegionInvariant (s : Arena) : Prop := ∃ h es, h.Valid ∧ h.Coalesced ∧ s.StoresIn es h

section AddMemory

variable {gap : Nat → UInt64} {s s' : Arena} {es : List (Nat × Nat)} {ts : List Tile} {h : Heap} {m : Mem}
  {block blockSize memory size arena n k space : Nat}

theorem Placed.of_rounded (h : Placed (es.map roundedExtent) ts) : Placed es ts :=
  ⟨h.sound, h.bound, h.apart, fun e he => h.clear (roundedExtent e) (List.mem_map_of_mem he)⟩

theorem Arena.StoresIn.holdsIn (hs : s.StoresIn es h) (hv : h.Valid) : HoldsIn (s.countGap h) s es h := by
  have hplaced : Placed (es.map roundedExtent) h.tiles := by
    rw [← hs.rounded]
    exact hv.layout.placed_tiles
  refine ⟨hv.layout, ⟨hplaced.of_rounded, hs.headers, hs.footers, hv.binned, hs.lists, hs.chain, fun i _ => ?_⟩,
    hs.rounded⟩
  rw [Arena.countGap]
  grind

/-- The invariant of arenas whose blocks fill their regions is a case of this one. -/
theorem HeapInvariant.regionInvariant (hi : HeapInvariant s) : RegionInvariant s := by
  obtain ⟨h, hv, hc, hs⟩ := hi
  have hrounded := (hs.holds hv).holdsIn.rounded
  exact ⟨h, h.extents, hv, hc, hs.headers, hs.footers, hs.lists, hs.chain, hrounded⟩

/-- The bits that become the `PredFree` flag of a new block's chunk. -/
def staleBit (m : Mem) (block blockSize : Nat) : Bool :=
  (chunkData m (block + sizeofBlockHeader)).testBit 1 || blockSize.testBit 1

theorem regionChunk_predFree (hr : s.Region block blockSize) :
    (regionChunk s block blockSize).predFree = staleBit s.mem block blockSize := by
  have hge : 24 ≤ blockSize := le_trans (by decide) hr.size_ge
  rw [regionChunk, staleBit, isPredecessorFree_eq_testBit, testBit_sub_header hge]
  rfl

/-- Whatever heap the arena is said to hold, its newest block begins with the chunk made
of the region, and that chunk says that nothing free is before it. -/
theorem staleBit_of_invariant (hr : s.Region block blockSize)
    (himage : Image gap s' ((block, blockSize) :: es) [] (regionChunk s block blockSize :: ts) h.bins)
    (hi : RegionInvariant s') : staleBit s.mem block blockSize = false := by
  obtain ⟨h', es', hv', -, hs'⟩ := hi
  obtain rfl := hs'.chain.unique himage.chain
  obtain ⟨b, hb, hbase, -⟩ := (hs'.holdsIn hv').exists_block (List.mem_cons_self (a := (block, blockSize)) (l := es))
  have htiled := hv'.layout.tiled b hb
  obtain ⟨p, hrun⟩ := htiled.run
  obtain ⟨u, us, hus⟩ := List.exists_cons_of_ne_nil htiled.nonempty
  rw [hus] at hrun
  obtain ⟨haddr, hpred, -⟩ := hrun
  have huin : u.In s'.mem := hs'.headers u (List.mem_flatMap.mpr ⟨b, hb, by rw [hus]; simp⟩)
  have hin : (regionChunk s block blockSize).In s'.mem := himage.headers _ (by simp)
  have hsame : u = regionChunk s block blockSize := huin.ext hin (by rw [haddr, Block.start, hbase]; rfl)
  rw [← regionChunk_predFree hr, ← hsame]
  exact hpred

theorem regionBlock_tiles (hr : s.Region block blockSize) (hclear : staleBit s.mem block blockSize = false) :
    (regionBlock block blockSize).tiles = [regionChunk s block blockSize] := by
  have hpred : (isPredecessorFree s.mem (block + 24) || (blockSize - 24).testBit 1) = false :=
    (regionChunk_predFree hr).trans hclear
  rw [regionBlock, regionChunk, hpred]

/-- The arena with one more block holds the heap with one more free chunk, if the bits
in the place of the `PredFree` flag are clear. -/
theorem storesIn_added (hs : HoldsIn gap s es h) (hc : h.Coalesced) (hr : s.Region block blockSize)
    (himage : Image gap s' ((block, blockSize) :: es) [] (regionChunk s block blockSize :: h.tiles)
      (rebin h.bins (block + 24, (blockSize - 24) / 8 * 8)))
    (hclear : staleBit s.mem block blockSize = false) :
    ∃ bins, Heap.Valid ⟨regionBlock block blockSize :: h.blocks, bins⟩ ∧
      Heap.Coalesced ⟨regionBlock block blockSize :: h.blocks, bins⟩ ∧
      s'.StoresIn ((block, blockSize) :: es) ⟨regionBlock block blockSize :: h.blocks, bins⟩ := by
  have htiles : (regionBlock block blockSize :: h.blocks).flatMap Block.tiles =
      regionChunk s block blockSize :: h.tiles := by
    rw [List.flatMap_cons, regionBlock_tiles hr hclear]
    rfl
  refine ⟨_, ⟨region_layout hs hr, ?_⟩, ?_, ⟨?_, ?_, himage.lists, himage.chain, ?_⟩⟩
  · rw [Heap.tiles, htiles]
    exact himage.binned
  · exact List.forall_mem_cons.mpr ⟨List.isChain_singleton _, hc⟩
  · rw [Heap.tiles, htiles]
    exact himage.headers
  · rw [Heap.tiles, htiles]
    exact himage.footers
  · rw [Heap.extents, List.map_cons, List.map_cons, show h.blocks.map Block.extent = _ from hs.rounded]
    rfl

theorem addMemoryBlock_invariant_iff (hs : HoldsIn gap s es h) (hc : h.Coalesced) (hr : s.Region block blockSize) :
    ∃ s', s.addMemoryBlock block blockSize = some s' ∧
      (RegionInvariant s' ↔ staleBit s.mem block blockSize = false) ∧
      (staleBit s.mem block blockSize = false →
        ∃ bins, Heap.Valid ⟨regionBlock block blockSize :: h.blocks, bins⟩ ∧
          Heap.Coalesced ⟨regionBlock block blockSize :: h.blocks, bins⟩ ∧
          s'.StoresIn ((block, blockSize) :: es) ⟨regionBlock block blockSize :: h.blocks, bins⟩) := by
  obtain ⟨s', hadd, himage, -⟩ := addMemoryBlock_region hs hr
  have hadded := storesIn_added hs hc hr himage
  refine ⟨s', hadd, ⟨fun hi => staleBit_of_invariant (h := ⟨[], _⟩) hr himage hi, fun hclear => ?_⟩, hadded⟩
  obtain ⟨bins, hv', hc', hs'⟩ := hadded hclear
  exact ⟨_, _, hv', hc', hs'⟩

/-! ## A new arena -/

/-- The address of the first block in memory from which an arena is made. -/
def firstBlock (memory : Nat) : Nat := ((memory + 7) / 8 * 8 + Arena.sizeofArena + 15) / 16 * 16

theorem align_eq (n k size space : Nat) (hk : k ≤ 64) (hptr : n + 2 ^ k ≤ 2 ^ 64) (hsize : size + 2 ^ k ≤ 2 ^ 64) :
    Arena.align (2 ^ k) size n space =
      if size + ((n + 2 ^ k - 1) / 2 ^ k * 2 ^ k - n) > space then none
      else some ((n + 2 ^ k - 1) / 2 ^ k * 2 ^ k, space - (size + ((n + 2 ^ k - 1) / 2 ^ k * 2 ^ k - n))) := by
  have hpos : 0 < 2 ^ k := Nat.two_pow_pos k
  have hdiv := Nat.div_add_mod (n + 2 ^ k - 1) (2 ^ k)
  have hmod := Nat.mod_lt (n + 2 ^ k - 1) hpos
  rw [Nat.mul_comm] at hdiv
  rw [Arena.align, alignUp_eq hk (by omega)]
  generalize (n + 2 ^ k - 1) / 2 ^ k * 2 ^ k = aligned at hdiv ⊢
  have hpadding : (aligned + (2 ^ 64 - n)) % 2 ^ 64 = aligned - n := by omega
  rw [hpadding, Nat.mod_eq_of_lt (by omega)]

/-- The space that the second alignment is given. The first one has taken the size of
the arena off it, and so has `createFromMemory`: it wraps if there is no room for two. -/
def leftSpace (memory size : Nat) : Nat :=
  (size - (Arena.sizeofArena + ((memory + 7) / 8 * 8 - memory)) + (2 ^ 64 - Arena.sizeofArena)) % 2 ^ 64

theorem place_eq (hend : memory + size ≤ 2 ^ 64) (hroom : firstBlock memory + 56 ≤ memory + size) :
    Arena.place memory size = some ((memory + 7) / 8 * 8,
      if 56 + (firstBlock memory - ((memory + 7) / 8 * 8 + Arena.sizeofArena)) > leftSpace memory size then none
      else some (firstBlock memory,
        leftSpace memory size - (56 + (firstBlock memory - ((memory + 7) / 8 * 8 + Arena.sizeofArena))))) := by
  have hA : Arena.sizeofArena = 8440 := by decide
  rw [firstBlock] at hroom ⊢
  have hfirst : Arena.align Arena.alignofArena Arena.sizeofArena memory size =
      some ((memory + 7) / 8 * 8, size - (Arena.sizeofArena + ((memory + 7) / 8 * 8 - memory))) := by
    have halign := align_eq memory 3 Arena.sizeofArena size (by decide) (by omega) (by omega)
    rw [if_neg (by omega)] at halign
    exact halign
  have hsecond := align_eq ((memory + 7) / 8 * 8 + Arena.sizeofArena) 4 56 (leftSpace memory size) (by decide)
    (by omega) (by omega)
  rw [Arena.place, hfirst]
  exact congrArg (fun region => some ((memory + 7) / 8 * 8, region)) hsecond

/-- What `createFromMemory` should leave: an arena in the memory, and after it a block
with room for a chunk, all of which is one free chunk. -/
def CreatedRight (m : Mem) (memory size : Nat) : Prop :=
  ∃ arena block n s', Arena.place memory size = some (arena, some (block, n)) ∧
    Arena.createFromMemory m memory size = some (arena, s') ∧
    (memory ≤ arena ∧ arena + Arena.sizeofArena ≤ block ∧ 56 ≤ n ∧ block + n ≤ memory + size) ∧
    ∃ bins, Heap.Valid ⟨[regionBlock block n], bins⟩ ∧ Heap.Coalesced ⟨[regionBlock block n], bins⟩ ∧
      s'.StoresIn [(block, n)] ⟨[regionBlock block n], bins⟩

theorem valid_empty : Heap.Valid ⟨[], fun _ => []⟩ :=
  ⟨⟨by simp, by simp, .nil⟩, by simp [freeChunks, Heap.tiles], by simp⟩

theorem coalesced_empty : Heap.Coalesced ⟨[], fun _ => []⟩ := by simp [Heap.Coalesced]

theorem storesIn_empty (m : Mem) : (Arena.empty m).StoresIn [] ⟨[], fun _ => []⟩ :=
  ⟨by simp [Heap.tiles], by simp [Heap.tiles], fun _ _ => rfl, rfl, rfl⟩

theorem region_empty (hpos : 0 < block) (hal : block % 16 = 0) (hn : 56 ≤ n) (hend : block + n ≤ 2 ^ 64) :
    (Arena.empty m).Region block n := by
  refine ⟨hpos, hal, hn, hend, fun es hes e he => ?_⟩
  obtain rfl : [] = es := BlocksAt.unique (rfl : BlocksAt m 0 []) hes
  simp at he

theorem createFromMemory_right_iff (hend : memory + size ≤ 2 ^ 64)
    (hroom : firstBlock memory + 56 ≤ memory + size) :
    CreatedRight m memory size ↔
      firstBlock memory + Arena.sizeofArena + 112 ≤ memory + size ∧
        staleBit m (firstBlock memory) (memory + size - (firstBlock memory + Arena.sizeofArena + 56)) = false := by
  have hA : Arena.sizeofArena = 8440 := by decide
  have hplace := place_eq hend hroom
  have hb : firstBlock memory = ((memory + 7) / 8 * 8 + Arena.sizeofArena + 15) / 16 * 16 := rfl
  have hl : leftSpace memory size =
    (size - (Arena.sizeofArena + ((memory + 7) / 8 * 8 - memory)) + (2 ^ 64 - Arena.sizeofArena)) % 2 ^ 64 := rfl
  have hregion (n : Nat) (hn : 56 ≤ n) (hle : firstBlock memory + n ≤ memory + size) :
      (Arena.empty m).Region (firstBlock memory) n :=
    region_empty (by omega) (by omega) hn (hle.trans hend)
  constructor
  · rintro ⟨arena, block, n, s', hp, hs', ⟨-, -, hn, hle⟩, bins, hv, hc, hst⟩
    rw [hplace] at hp
    obtain ⟨-, hp⟩ := Prod.mk.inj (Option.some.inj hp)
    by_cases hspace : 56 + (firstBlock memory - ((memory + 7) / 8 * 8 + Arena.sizeofArena)) > leftSpace memory size
    · rw [if_pos hspace] at hp
      cases hp
    · rw [if_neg hspace] at hp
      obtain ⟨rfl, hn'⟩ := Prod.mk.inj (Option.some.inj hp)
      have hexact : n = memory + size - (firstBlock memory + Arena.sizeofArena + 56) := by omega
      refine ⟨by omega, ?_⟩
      obtain ⟨s₁, hadd, hiff, -⟩ := addMemoryBlock_invariant_iff ((storesIn_empty m).holdsIn valid_empty) coalesced_empty
        (hregion n hn hle)
      rw [Arena.createFromMemory, hplace, if_neg hspace, hn'] at hs'
      dsimp only at hs'
      rw [hadd] at hs'
      obtain ⟨-, rfl⟩ := Prod.mk.inj (Option.some.inj hs')
      rw [← hexact]
      exact hiff.mp ⟨_, _, hv, hc, hst⟩
  · rintro ⟨hle, hclear⟩
    obtain ⟨n, hn⟩ : ∃ n, n = memory + size - (firstBlock memory + Arena.sizeofArena + 56) := ⟨_, rfl⟩
    rw [← hn] at hclear
    have hspace : ¬ 56 + (firstBlock memory - ((memory + 7) / 8 * 8 + Arena.sizeofArena)) > leftSpace memory size := by
      omega
    have hleft : leftSpace memory size - (56 + (firstBlock memory - ((memory + 7) / 8 * 8 + Arena.sizeofArena))) = n := by
      omega
    rw [if_neg hspace, hleft] at hplace
    obtain ⟨s', hadd, -, hnew⟩ := addMemoryBlock_invariant_iff ((storesIn_empty m).holdsIn valid_empty) coalesced_empty
      (hregion n (by omega) (by omega))
    refine ⟨_, _, n, s', hplace, ?_, ⟨by omega, by omega, by omega, by omega⟩, hnew hclear⟩
    rw [Arena.createFromMemory, hplace]
    dsimp only
    rw [hadd]
    rfl

/-- Adding memory leaves a valid arena exactly if the bits that end up in the `PredFree`
flag of the new chunk are clear: one of the memory and one of the size. A new arena is
made right exactly if there is room for the sizes that are taken off twice, besides. -/
theorem addMemory_right_iff (hv : h.Valid) (hc : h.Coalesced) (hs : s.StoresIn es h) (hr : s.Region block blockSize) :
    (∃ s', s.addMemoryBlock block blockSize = some s' ∧
      (RegionInvariant s' ↔ staleBit s.mem block blockSize = false) ∧
      (staleBit s.mem block blockSize = false →
        ∃ bins, Heap.Valid ⟨regionBlock block blockSize :: h.blocks, bins⟩ ∧
          Heap.Coalesced ⟨regionBlock block blockSize :: h.blocks, bins⟩ ∧
          s'.StoresIn ((block, blockSize) :: es) ⟨regionBlock block blockSize :: h.blocks, bins⟩)) ∧
      ∀ m memory size, memory + size ≤ 2 ^ 64 → firstBlock memory + 56 ≤ memory + size →
        (CreatedRight m memory size ↔
          firstBlock memory + Arena.sizeofArena + 112 ≤ memory + size ∧
            staleBit m (firstBlock memory) (memory + size - (firstBlock memory + Arena.sizeofArena + 56)) = false) :=
  ⟨addMemoryBlock_invariant_iff (hs.holdsIn hv) hc hr, fun _ _ _ hend hroom => createFromMemory_right_iff hend hroom⟩

end AddMemory

/-- A new arena over clear memory takes a block. -/
theorem addMemory_right_iff_first : ∃ s', (Arena.empty fun _ => 0).addMemoryBlock 4096 4096 = some s' ∧
    (RegionInvariant s' ↔ staleBit (fun _ => 0) 4096 4096 = false) := by
  have hr : (Arena.empty fun _ => 0).Region 4096 4096 :=
    region_empty (by decide) (by decide) (by decide) (by decide)
  obtain ⟨⟨s', hadd, hiff, -⟩, -⟩ := addMemory_right_iff valid_empty coalesced_empty (storesIn_empty fun _ => 0) hr
  exact ⟨s', hadd, hiff⟩

/-- Memory that has one bit set where the header of the first chunk will be. -/
def staleMemory : Mem := fun a => if a = 4120 then 2 else 0

theorem addMemoryBlock_stale :
    ¬ ∀ (m : Mem) (block blockSize : Nat), (Arena.empty m).Region block blockSize →
      ∃ s', (Arena.empty m).addMemoryBlock block blockSize = some s' ∧ RegionInvariant s' := by
  intro hall
  have hr : (Arena.empty staleMemory).Region 4096 4096 :=
    region_empty (by decide) (by decide) (by decide) (by decide)
  obtain ⟨s', hadd, hi⟩ := hall staleMemory 4096 4096 hr
  obtain ⟨s₁, hadd₁, hiff, -⟩ :=
    addMemoryBlock_invariant_iff ((storesIn_empty staleMemory).holdsIn valid_empty) coalesced_empty hr
  rw [hadd₁] at hadd
  obtain rfl := Option.some.inj hadd
  have hclear : staleBit staleMemory 4096 4096 = false := hiff.mp hi
  exact absurd hclear (by decide +kernel)

end XviOs.Allocator
