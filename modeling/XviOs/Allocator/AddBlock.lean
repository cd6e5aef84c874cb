import XviOs.Allocator.Realise

namespace XviOs.Allocator

open Library.LittleEndian Chunk Tile SizeClass BinList

variable {gap : Nat → UInt64} {s : Arena} {es : List (Nat × Nat)} {mid outer : List Tile}
  {bins : Nat → List (Nat × Nat)} {h : Heap} {t : Tile} {m m' : Mem} {lo hi block blockSize : Nat}

/-- A memory block that may be added: aligned, big enough for a chunk, and apart
from the blocks of the arena. -/
structure Arena.Addable (s : Arena) (block blockSize : Nat) : Prop where
  pos : 0 < block
  aligned : block % 16 = 0
  size_mod : blockSize % 8 = 0
  size_ge : sizeofBlockHeader + chunkMinSize ≤ blockSize
  stop_le : block + blockSize ≤ 2 ^ 64
  apart : ∀ es, BlocksAt s.mem s.blocks es → ∀ e ∈ es, e.1 + e.2 ≤ block ∨ block + blockSize ≤ e.1

/-- A region of memory for a block, whose size may be any that has room for a chunk. -/
structure Arena.Region (s : Arena) (block blockSize : Nat) : Prop where
  pos : 0 < block
  aligned : block % 16 = 0
  size_ge : sizeofBlockHeader + chunkMinSize ≤ blockSize
  stop_le : block + blockSize ≤ 2 ^ 64
  apart : ∀ es, BlocksAt s.mem s.blocks es → ∀ e ∈ es, e.1 + e.2 ≤ block ∨ block + blockSize ≤ e.1

theorem Arena.Addable.region (h : s.Addable block blockSize) : s.Region block blockSize :=
  ⟨h.pos, h.aligned, h.size_ge, h.stop_le, h.apart⟩

/-- A region as far as chunks can use it. -/
def roundedExtent (e : Nat × Nat) : Nat × Nat := (e.1, e.2 / 8 * 8)

/-- The arena holds the heap in the regions `es`, what is left of them at the end unused. -/
structure HoldsIn (gap : Nat → UInt64) (s : Arena) (es : List (Nat × Nat)) (h : Heap) : Prop where
  layout : Layout h.blocks
  image : Image gap s es [] h.tiles h.bins
  rounded : h.extents = es.map roundedExtent

theorem Abut.mod_eight {ts : List Tile} {a a' : Nat} (h : Abut a ts a') (hs : ∀ t ∈ ts, t.size % 8 = 0) :
    a' % 8 = a % 8 := by
  induction ts generalizing a with
  | nil =>
      obtain rfl : a' = a := h
      rfl
  | cons t ts ih =>
      obtain ⟨rfl, ht⟩ := h
      rw [ih ht (fun u hu => hs u (by simp [hu]))]
      have := hs t (by simp)
      rw [stop]
      omega

theorem Layout.roundedExtent_eq {bs : List Block} (hl : Layout bs) :
    ∀ e ∈ bs.map Block.extent, roundedExtent e = e := by
  intro e he
  obtain ⟨b, hb, rfl⟩ := List.mem_map.mp he
  have htiled := hl.tiled b hb
  have hmod := htiled.abut.mod_eight (fun t ht => (htiled.sound t ht).size_mod)
  have haligned := (hl.placed b hb).2.1
  simp only [Block.start, Block.stop] at hmod
  exact Prod.ext rfl (show b.size / 8 * 8 = b.size by omega)

theorem Holds.holdsIn (hs : Holds gap s h) : HoldsIn gap s h.extents h :=
  ⟨hs.layout, hs.image, ((List.map_congr_left hs.layout.roundedExtent_eq).trans (List.map_id' _)).symm⟩

theorem HoldsIn.exists_block (hs : HoldsIn gap s es h) {e : Nat × Nat} (he : e ∈ es) :
    ∃ b ∈ h.blocks, b.base = e.1 ∧ b.size = e.2 / 8 * 8 := by
  have hm : roundedExtent e ∈ h.extents := by
    rw [hs.rounded]
    exact List.mem_map_of_mem he
  obtain ⟨b, hb, hbe⟩ := List.mem_map.mp hm
  exact ⟨b, hb, congrArg Prod.fst hbe, congrArg Prod.snd hbe⟩

theorem HoldsIn.exists_extent (hs : HoldsIn gap s es h) {b : Block} (hb : b ∈ h.blocks) :
    ∃ e ∈ es, b.base = e.1 ∧ b.size = e.2 / 8 * 8 := by
  have hm : b.extent ∈ es.map roundedExtent := by
    rw [← hs.rounded]
    exact List.mem_map_of_mem hb
  obtain ⟨e, he, heb⟩ := List.mem_map.mp hm
  exact ⟨e, he, (congrArg Prod.fst heb).symm, (congrArg Prod.snd heb).symm⟩

/-- What lies outside of a span that changes stays as it is. -/
theorem Image.frame (h : Image gap s es mid outer bins) (hm : ∀ a b, b ≤ lo ∨ hi ≤ a → EqOn s.mem m' a b)
    (ht : ∀ t ∈ mid ++ outer, t.stop ≤ lo ∨ hi ≤ t.addr) (he : ∀ e ∈ es, e.1 + 24 ≤ lo ∨ hi ≤ e.1) :
    Image gap { s with mem := m' } es mid outer bins := by
  refine ⟨h.placed, fun t htm => ?_, fun t htm hf => ?_, h.binned, fun i hi => ?_, ?_, h.counts⟩
  · have h1 := (h.placed.sound t htm).size_ge
    have h2 := ht t htm
    simp only [stop] at h2
    exact (h.headers t htm).congr (hm _ _ (by omega))
  · have htm' : t ∈ mid ++ outer := by simp [htm]
    have h1 := (h.placed.sound t htm').size_ge
    have h2 := ht t htm'
    have h3 : t.stop = t.addr + t.size := rfl
    exact (h.footers t htm hf).congr (hm _ _ (by omega))
  · refine (h.lists i hi).congr fun x hx => ?_
    obtain ⟨t, htm, _, rfl, _⟩ := h.bin_addrs hx
    have htm' : t ∈ mid ++ outer := by simp [htm]
    have h1 := (h.placed.sound t htm').size_ge
    have h2 := ht t htm'
    simp only [stop] at h2
    exact hm _ _ (by omega)
  · exact h.chain.congr fun e hem => hm _ _ (he e hem)

/-- Any three bits are flags. -/
theorem exists_flagWord (w : Nat) : ∃ f p l, w &&& flagMask = flagWord f p l := by
  have hall : ∀ k < 8, ∃ f p l, k = flagWord f p l := by decide
  rw [and_flagMask]
  exact hall _ (Nat.mod_lt w (by decide))

theorem testBit_flagWord (f p l : Bool) : (flagWord f p l).testBit 1 = p := by
  cases f <;> cases p <;> cases l <;> decide

theorem isPredecessorFree_eq_testBit (m : Mem) (c : Nat) : isPredecessorFree m c = (chunkData m c).testBit 1 := by
  obtain ⟨f, p, l, hw⟩ := exists_flagWord (chunkData m c)
  have hbit : (chunkData m c).testBit 1 = p := by
    rw [← testBit_flagWord f p l, ← hw, Nat.testBit_and, show flagMask.testBit 1 = true from rfl, Bool.and_true]
  rw [hbit, isPredecessorFree, Chunk.flags, hw]
  cases f <;> cases p <;> cases l <;> rfl

/-- `setSize` in any memory makes a chunk. Its flags are those that happen to be there,
and the bits of the size that the rounding cuts off. -/
theorem exists_tile_setSize (m : Mem) (c n : Nat) :
    ∃ t : Tile, t.addr = c ∧ t.size = n / 8 * 8 ∧ t.predFree = (isPredecessorFree m c || n.testBit 1) ∧
      setSize m c n = t.put m := by
  obtain ⟨f, p, l, hw⟩ := exists_flagWord (n ||| Chunk.flags m c)
  have hlt : Chunk.flags m c < 2 ^ 3 := by
    rw [Chunk.flags, and_flagMask]
    exact Nat.mod_lt _ (by decide)
  have hdiv : (n ||| Chunk.flags m c) / 8 = n / 8 := by
    have := Nat.or_div_two_pow (a := n) (b := Chunk.flags m c) (n := 3)
    rw [Nat.div_eq_of_lt hlt, Nat.or_zero] at this
    exact this
  have hmod : (n ||| Chunk.flags m c) % 8 = flagWord f p l := by rw [← and_flagMask, hw]
  refine ⟨⟨c, n / 8 * 8, f, p, l⟩, rfl, rfl, ?_, ?_⟩
  · have hflag : (Chunk.flags m c).testBit 1 = isPredecessorFree m c := by
      rw [isPredecessorFree_eq_testBit, Chunk.flags, Nat.testBit_and, show flagMask.testBit 1 = true from rfl,
        Bool.and_true]
    have hp : (n ||| Chunk.flags m c).testBit 1 = p := by
      rw [← testBit_flagWord f p l, ← hw, Nat.testBit_and, show flagMask.testBit 1 = true from rfl, Bool.and_true]
    rw [← hp, Nat.testBit_or, hflag, Bool.or_comm]
  · have hword : n ||| Chunk.flags m c = n / 8 * 8 + flagWord f p l := by
      rw [← hmod, ← hdiv]
      omega
    rw [setSize, setSizeAndFlags, hword]
    rfl

/-- The chunk that a region is made of. -/
def regionChunk (s : Arena) (block blockSize : Nat) : Tile :=
  ⟨block + 24, (blockSize - 24) / 8 * 8, true, isPredecessorFree s.mem (block + 24) || (blockSize - 24).testBit 1, true⟩

theorem testBit_sub_header (hge : 24 ≤ blockSize) : (blockSize - 24).testBit 1 = blockSize.testBit 1 := by
  rw [Nat.testBit_eq_decide_div_mod_eq, Nat.testBit_eq_decide_div_mod_eq, Nat.pow_one, decide_eq_decide]
  omega

/-- The chunk that a new block is made of. -/
def newChunk (s : Arena) (block blockSize : Nat) : Tile :=
  ⟨block + 24, blockSize - 24, true, isPredecessorFree s.mem (block + 24), true⟩

theorem Arena.Addable.regionChunk_eq (ha : s.Addable block blockSize) :
    regionChunk s block blockSize = newChunk s block blockSize := by
  have hge : 56 ≤ blockSize := ha.size_ge
  have hmod := ha.size_mod
  have hsize : (blockSize - 24) / 8 * 8 = blockSize - 24 := by omega
  have hbit : (blockSize - 24).testBit 1 = false := by
    rw [Nat.testBit_eq_decide_div_mod_eq, decide_eq_false_iff_not]
    omega
  rw [regionChunk, newChunk, hsize, hbit, Bool.or_false]

/-- The memory of a new block, with its chunk not in a bin yet. -/
def addBlockMemory (m : Mem) (blocks block blockSize : Nat) : Mem :=
  let m := write64 (write64 (write64 m block blockSize) (block + 8) 0) (block + 16) blocks
  doFree (markLast (setSize m (block + 24) (blockSize - 24)) (block + 24)) (block + 24)

theorem addBlockMemory_spec (hr : s.Region block blockSize) :
    (regionChunk s block blockSize).In (addBlockMemory s.mem s.blocks block blockSize) ∧
      (regionChunk s block blockSize).Footed (addBlockMemory s.mem s.blocks block blockSize) ∧
      read64 (addBlockMemory s.mem s.blocks block blockSize) block = blockSize ∧
      read64 (addBlockMemory s.mem s.blocks block blockSize) (block + 16) = s.blocks % 2 ^ 64 ∧
      ∀ a b, b ≤ block ∨ block + blockSize ≤ a →
        EqOn s.mem (addBlockMemory s.mem s.blocks block blockSize) a b := by
  have hge : 56 ≤ blockSize := hr.size_ge
  have hpos := hr.pos
  have hstop := hr.stop_le
  -- the block header
  obtain ⟨m₁, hm₁⟩ : ∃ m₁, m₁ =
      write64 (write64 (write64 s.mem block blockSize) (block + 8) 0) (block + 16) s.blocks := ⟨_, rfl⟩
  have heq₁ (a b : Nat) (hab : b ≤ block ∨ block + 24 ≤ a) : EqOn s.mem m₁ a b := by
    rw [hm₁]
    exact ((write64_eqOn _ _ _ (by omega)).trans (write64_eqOn _ _ _ (by omega))).trans
      (write64_eqOn _ _ _ (by omega))
  have hsize₁ : read64 m₁ block = blockSize := by
    rw [hm₁, read64_write64_of_disjoint _ _ (by omega), read64_write64_of_disjoint _ _ (by omega)]
    exact read64_write64_self _ _ (by omega)
  have hnext₁ : read64 m₁ (block + 16) = s.blocks % 2 ^ 64 := by
    rw [hm₁, read64, write64, readLE_writeLE_self]
    exact congrArg (s.blocks % ·) (by norm_num : 256 ^ 8 = 2 ^ 64)
  -- the chunk header
  obtain ⟨t, hta, hts, htp, hset⟩ := exists_tile_setSize m₁ (block + 24) (blockSize - 24)
  have hpred : isPredecessorFree m₁ (block + 24) = isPredecessorFree s.mem (block + 24) := by
    rw [isPredecessorFree, isPredecessorFree, Chunk.flags, Chunk.flags, chunkData, chunkData,
      read64_congr (heq₁ _ _ (.inr le_rfl))]
  have hin₂ : t.In (t.put m₁) := put_in (by omega) (by omega)
  obtain ⟨u, hu⟩ : ∃ u : Tile, u = { t with last := true } := ⟨_, rfl⟩
  have hua : u.addr = block + 24 := by rw [hu]; exact hta
  have hus : u.size = (blockSize - 24) / 8 * 8 := by rw [hu]; exact hts
  have hustop : u.stop ≤ block + blockSize := by rw [stop, hua, hus]; omega
  have hin₃ : u.In (u.put (t.put m₁)) := put_in (by omega) (by omega)
  have hmark : markLast (t.put m₁) (block + 24) = u.put (t.put m₁) := by
    rw [← hta, hin₂.markLast_eq, hu]
  obtain ⟨hin, hfoot, _, heff⟩ := doFree_spec hin₃ (⟨by rw [hu]; rfl, by simp⟩ : Followed _ u []) (by omega)
  have hnew : regionChunk s block blockSize = { u with free := true } := by
    rw [regionChunk, ← hpred, ← htp, ← hus, ← hua, hu]
  have hfinal : addBlockMemory s.mem s.blocks block blockSize = doFree (u.put (t.put m₁)) u.addr := by
    simp only [addBlockMemory, ← hm₁, hset, hmark, hua]
  have heq (a b : Nat) (hab : b ≤ block + 24 ∨ block + blockSize ≤ a) :
      EqOn m₁ (doFree (u.put (t.put m₁)) u.addr) a b :=
    ((t.put_eqOn m₁ (by omega)).trans (u.put_eqOn _ (by omega))).trans (heff a b (by omega) (.inl rfl))
  rw [hfinal, hnew]
  refine ⟨hin, hfoot, ?_, ?_, fun a b hab => (heq₁ a b (by omega)).trans (heq a b (by omega))⟩
  · rw [read64_congr (heq _ _ (.inl (by omega))), hsize₁]
  · rw [read64_congr (heq _ _ (.inl (by omega))), hnext₁]

/-- The block that a region should become: all that eight divides of it is one free chunk. -/
def regionBlock (block blockSize : Nat) : Block :=
  ⟨block, blockSize / 8 * 8, [⟨block + 24, (blockSize - 24) / 8 * 8, true, false, true⟩]⟩

/-- The new block beside the others, once its chunk says that nothing free is before it. -/
theorem region_layout (hs : HoldsIn gap s es h) (hr : s.Region block blockSize) :
    Layout (regionBlock block blockSize :: h.blocks) := by
  have hge : 56 ≤ blockSize := hr.size_ge
  have hal := hr.aligned
  have hstop := hr.stop_le
  have htiled : (regionBlock block blockSize).Tiled := by
    refine ⟨by simp [regionBlock], ⟨true, rfl, rfl, rfl, ?_⟩, ⟨rfl, trivial⟩, ?_⟩
    · simp only [Block.stop, stop, regionBlock]
      omega
    · intro t ht
      obtain rfl := List.mem_singleton.mp ht
      exact ⟨show 32 ≤ (blockSize - 24) / 8 * 8 by omega, show (blockSize - 24) / 8 * 8 % 8 = 0 by omega,
        show (block + 24) % 16 = 8 by omega⟩
  have hend : (regionBlock block blockSize).stop ≤ block + blockSize := by
    show block + blockSize / 8 * 8 ≤ _
    omega
  refine ⟨List.forall_mem_cons.mpr ⟨htiled, hs.layout.tiled⟩,
    List.forall_mem_cons.mpr ⟨⟨hr.pos, hr.aligned, hend.trans hr.stop_le⟩, hs.layout.placed⟩,
    List.pairwise_cons.mpr ⟨fun b hb => ?_, hs.layout.apart⟩⟩
  obtain ⟨e, he, hbase, hsize⟩ := hs.exists_extent hb
  have hap := hr.apart _ hs.image.chain e he
  show (regionBlock block blockSize).stop ≤ b.base ∨ b.base + b.size ≤ block
  rw [hbase, hsize]
  omega

theorem addable_layout (hs : Holds gap s h) (ha : s.Addable block blockSize) :
    Layout (⟨block, blockSize, [{ newChunk s block blockSize with predFree := false }]⟩ :: h.blocks) := by
  have hge : 56 ≤ blockSize := ha.size_ge
  have hmod := ha.size_mod
  have hlayout := region_layout hs.holdsIn ha.region
  rw [regionBlock, show blockSize / 8 * 8 = blockSize by omega,
    show (blockSize - 24) / 8 * 8 = blockSize - 24 by omega] at hlayout
  exact hlayout

theorem HoldsIn.blocks_lt (hs : HoldsIn gap s es h) : s.blocks < 2 ^ 64 := by
  have hchain := hs.image.chain
  cases es with
  | nil =>
      have : s.blocks = 0 := hchain
      omega
  | cons e es =>
      obtain ⟨b, hb, hbase, -⟩ := hs.exists_block (List.mem_cons_self (a := e) (l := es))
      have h1 := (hs.layout.placed b hb).2.2
      have h2 := (hs.layout.tiled b hb).abut.le
      have h3 : s.blocks = e.1 := hchain.1
      simp only [Block.start, Block.stop] at h1 h2
      omega

/-- A new block is one free chunk in its bin. Its `PredFree` flag is what happened
to be in the memory, and in the size. -/
theorem addMemoryBlock_region (hs : HoldsIn gap s es h) (hr : s.Region block blockSize) :
    ∃ s', s.addMemoryBlock block blockSize = some s' ∧
      Image gap s' ((block, blockSize) :: es) [] (regionChunk s block blockSize :: h.tiles)
        (rebin h.bins (block + 24, (blockSize - 24) / 8 * 8)) ∧
      s'.usage = s.usage ∧ s'.accounting.chunksFree = s.accounting.chunksFree := by
  have hge : 56 ≤ blockSize := hr.size_ge
  have hstop := hr.stop_le
  obtain ⟨hin, hfoot, hsize, hnext, heq⟩ := addBlockMemory_spec hr
  have hlayout := region_layout hs hr
  -- everything else stays
  have htiles : ∀ t ∈ [] ++ h.tiles, t.stop ≤ block ∨ block + blockSize ≤ t.addr := by
    intro t ht
    obtain ⟨b, hb, htb⟩ := List.mem_flatMap.mp (show t ∈ h.tiles from ht)
    obtain ⟨h1, h2⟩ := (hs.layout.tiled b hb).bounds htb
    obtain ⟨e, he, hbase, hbsize⟩ := hs.exists_extent hb
    have hap := hr.apart _ hs.image.chain e he
    simp only [Block.start, Block.stop] at h1 h2
    omega
  have hextents : ∀ e ∈ es, e.1 + 24 ≤ block ∨ block + blockSize ≤ e.1 := by
    intro e he
    obtain ⟨b, hb, hbase, hbsize⟩ := hs.exists_block he
    have hap := hr.apart _ hs.image.chain e he
    have h1 := (hs.layout.tiled b hb).abut.le
    simp only [Block.start, Block.stop] at h1
    omega
  have hframe := hs.image.frame heq htiles hextents
  have hplaced : Placed ((block, blockSize) :: es) (regionChunk s block blockSize :: h.tiles) := by
    obtain ⟨h1, h2, h3, h4⟩ := @Placed.told _ [] h.tiles [_] (regionChunk s block blockSize).predFree hlayout.placed_tiles
    refine ⟨h1, h2, h3, fun e he t ht => ?_⟩
    have hrounded : roundedExtent e ∈ (regionBlock block blockSize :: h.blocks).map Block.extent := by
      rw [List.map_cons, show h.blocks.map Block.extent = es.map roundedExtent from hs.rounded]
      exact List.mem_map_of_mem he
    exact h4 (roundedExtent e) hrounded t ht
  obtain ⟨s₁, hs₁⟩ : ∃ s₁ : Arena, s₁ = { s with
      mem := addBlockMemory s.mem s.blocks block blockSize
      blocks := block
      accounting := { s.accounting with
        blocksAdded := s.accounting.blocksAdded + 1
        blocksHighMark := max s.accounting.blocksHighMark (s.accounting.blocksAdded + 1)
        totalSize := s.accounting.totalSize + UInt64.ofNat blockSize
        overheadSize := s.accounting.overheadSize + UInt64.ofNat sizeofBlockHeader
        totalSizeHighMark :=
          max s.accounting.totalSizeHighMark (s.accounting.totalSize + UInt64.ofNat blockSize) } } := ⟨_, rfl⟩
  have hm₁ : s₁.mem = addBlockMemory s.mem s.blocks block blockSize := by rw [hs₁]
  have himage : Image gap s₁ ((block, blockSize) :: es) [regionChunk s block blockSize] h.tiles h.bins := by
    refine ⟨hplaced, ?_, ?_, hframe.binned, ?_, ?_, ?_⟩
    · rw [hm₁]
      exact List.forall_mem_cons.mpr ⟨hin, hframe.headers⟩
    · rw [hm₁]
      exact hframe.footers
    · rw [hs₁]
      exact hframe.lists
    · rw [hs₁]
      refine ⟨rfl, hr.pos.ne', hsize, ?_⟩
      dsimp only
      rw [hnext, Nat.mod_eq_of_lt hs.blocks_lt]
      exact hframe.chain
    · rw [hs₁]
      exact hframe.counts
  obtain ⟨s', hadd, hacct, hnew, _⟩ := himage.insert rfl (hm₁ ▸ hfoot) none
  have hchunk : (blockSize + (2 ^ 64 - sizeofBlockHeader)) % 2 ^ 64 = blockSize - 24 := by
    have hpos := hr.pos
    rw [show sizeofBlockHeader = 24 from rfl]
    omega
  refine ⟨s', ?_, hnew, ?_, ?_⟩
  · rw [← hadd, hs₁]
    simp only [Arena.addMemoryBlock, hchunk]
    rfl
  · rw [Arena.usage, hacct, hs₁]
    rfl
  · rw [hacct, hs₁]

/-- The same for a block that eight divides. -/
theorem addMemoryBlock_spec (hs : Holds gap s h) (ha : s.Addable block blockSize) :
    ∃ s', s.addMemoryBlock block blockSize = some s' ∧
      Image gap s' ((block, blockSize) :: h.extents) [] (newChunk s block blockSize :: h.tiles)
        (rebin h.bins (block + 24, blockSize - 24)) ∧
      s'.usage = s.usage ∧ s'.accounting.chunksFree = s.accounting.chunksFree := by
  have hge : 56 ≤ blockSize := ha.size_ge
  have hmod := ha.size_mod
  have hspec := addMemoryBlock_region hs.holdsIn ha.region
  rwa [ha.regionChunk_eq, show (blockSize - 24) / 8 * 8 = blockSize - 24 by omega] at hspec

end XviOs.Allocator
