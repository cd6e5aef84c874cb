import XviOs.Allocator.Heap

namespace XviOs.Allocator

open SizeClass Tile Chunk

/-- Tiles that lie apart from each other and from the headers of the blocks
`es` (address and size). -/
structure Placed (es : List (Nat × Nat)) (ts : List Tile) : Prop where
  sound : ∀ t ∈ ts, t.Sound
  bound : ∀ t ∈ ts, t.stop ≤ 2 ^ 64
  apart : ts.Pairwise Tile.Apart
  clear : ∀ e ∈ es, ∀ t ∈ ts, e.1 + 24 ≤ t.addr ∨ t.stop ≤ e.1

/-- A place in a list of blocks: inside the block at `base`, after the tiles `pre`. -/
structure Spot where
  before : List Block
  base : Nat
  size : Nat
  pre : List Tile
  after : List Block

namespace Spot

/-- The blocks, with the tiles `ts` filled in from the place on. -/
def blocks (k : Spot) (ts : List Tile) : List Block := k.before ++ ⟨k.base, k.size, k.pre ++ ts⟩ :: k.after

/-- The tiles of all blocks, less those from the place on. -/
def rest (k : Spot) : List Tile := k.pre ++ (k.before.flatMap Block.tiles ++ k.after.flatMap Block.tiles)

def extents (k : Spot) : List (Nat × Nat) :=
  k.before.map Block.extent ++ (k.base, k.size) :: k.after.map Block.extent

/-- The place one tile further. -/
def step (k : Spot) (t : Tile) : Spot := { k with pre := k.pre ++ [t] }

end Spot

variable {k : Spot} {bs : List Block} {es : List (Nat × Nat)} {t u d : Tile} {ts ts' us old new post : List Tile}
  {p q : Bool} {a e lo hi x y : Nat}

instance : Std.Symm Tile.Apart := ⟨fun _ _ => Or.symm⟩

instance : Std.Symm Block.Apart := ⟨fun _ _ => Or.symm⟩

theorem Tile.Sound.pos (h : t.Sound) : 0 < t.addr := by
  have := h.aligned
  omega

theorem Tile.Sound.size_ge (h : t.Sound) : 32 ≤ t.size := h.min

theorem Placed.perm (h : Placed es ts) (hp : ts.Perm us) : Placed es us :=
  ⟨fun t ht => h.sound t (hp.mem_iff.mpr ht), fun t ht => h.bound t (hp.mem_iff.mpr ht),
    (hp.pairwise_iff Or.symm).mp h.apart, fun e he t ht => h.clear e he t (hp.mem_iff.mpr ht)⟩

/-- What a tile is told about its predecessor does not move it. -/
theorem Placed.told (f : Bool) (h : Placed es (ts ++ (post ++ us))) : Placed es (ts ++ (setPredFree f post ++ us)) := by
  cases post with
  | nil => exact h
  | cons d post =>
      have hp (d : Tile) : (ts ++ (d :: post ++ us)).Perm (d :: (ts ++ (post ++ us))) := List.perm_middle
      obtain ⟨h1, h2, h3, h4⟩ := h.perm (hp d)
      refine Placed.perm ?_ (hp { d with predFree := f }).symm
      refine ⟨List.forall_mem_cons.mpr ⟨?_, fun t ht => h1 t (by simp [ht])⟩,
        List.forall_mem_cons.mpr ⟨h2 d (by simp), fun t ht => h2 t (by simp [ht])⟩,
        List.pairwise_cons.mpr ⟨fun u hu => (List.pairwise_cons.mp h3).1 u hu, (List.pairwise_cons.mp h3).2⟩, fun e he =>
        List.forall_mem_cons.mpr ⟨h4 e he d (by simp), fun t ht => h4 e he t (by simp [ht])⟩⟩
      obtain ⟨ha, hb, hc⟩ := h1 d (by simp)
      exact ⟨ha, hb, hc⟩

/-- A span that meets none of the abutting tiles lies before or after them all. -/
theorem Abut.outside (h : Abut lo ts hi) (hne : ts ≠ []) (hxy : x < y)
    (ho : ∀ t ∈ ts, y ≤ t.addr ∨ t.stop ≤ x) : y ≤ lo ∨ hi ≤ x := by
  induction ts generalizing lo with
  | nil => exact absurd rfl hne
  | cons t ts ih =>
      obtain ⟨rfl, ht⟩ := h
      rcases ho t (by simp) with hy | hx
      · exact .inl hy
      · right
        by_cases hts : ts = []
        · subst hts
          exact (show hi = t.stop from ht).le.trans hx
        · have := ih ht hts (fun u hu => ho u (by simp [hu]))
          omega

theorem abut_append : Abut a (ts ++ us) e ↔ ∃ b, Abut a ts b ∧ Abut b us e := by
  induction ts generalizing a with
  | nil => simp [Abut]
  | cons t ts ih => simp [Abut, ih, and_assoc]

namespace Block.Tiled

variable {b : Block}

theorem abut (h : b.Tiled) : Abut b.start b.tiles b.stop := by
  obtain ⟨p, hp⟩ := h.run
  exact hp.abut

theorem bounds (h : b.Tiled) (ht : t ∈ b.tiles) : b.start ≤ t.addr ∧ t.stop ≤ b.stop := h.abut.bounds t ht

end Block.Tiled

/-- The tiles of a layout are placed. -/
theorem Layout.placed_tiles (h : Layout bs) : Placed (bs.map Block.extent) (bs.flatMap Block.tiles) := by
  have hbounds (b : Block) (hb : b ∈ bs) (t : Tile) (ht : t ∈ b.tiles) := (h.tiled b hb).bounds ht
  refine ⟨?_, ?_, ?_, ?_⟩
  · intro t ht
    obtain ⟨b, hb, htb⟩ := List.mem_flatMap.mp ht
    exact (h.tiled b hb).sound t htb
  · intro t ht
    obtain ⟨b, hb, htb⟩ := List.mem_flatMap.mp ht
    exact (hbounds b hb t htb).2.trans (h.placed b hb).2.2
  · refine List.pairwise_flatMap.mpr ⟨fun b hb => ?_, ?_⟩
    · exact (h.tiled b hb).abut.pairwise.imp Or.inl
    · refine h.apart.imp_of_mem fun {b c} hb hc hbc t ht u hu => ?_
      obtain ⟨ht1, ht2⟩ := hbounds b hb t ht
      obtain ⟨hu1, hu2⟩ := hbounds c hc u hu
      simp only [Block.start] at ht1 hu1
      rcases hbc with hbc | hbc
      · exact .inl (by omega)
      · exact .inr (by omega)
  · intro e he t ht
    obtain ⟨c, hc, rfl⟩ := List.mem_map.mp he
    obtain ⟨b, hb, htb⟩ := List.mem_flatMap.mp ht
    obtain ⟨ht1, ht2⟩ := hbounds b hb t htb
    simp only [Block.start] at ht1
    simp only [Block.extent]
    by_cases hbc : b = c
    · subst hbc
      exact .inl ht1
    · have hsize : c.base + 24 ≤ c.stop := by
        have := (h.tiled c hc).abut.le
        simpa only [Block.start] using this
      have hapart := h.apart.forall hb hc hbc
      rcases hapart with hap | hap
      · exact .inr (by omega)
      · exact .inl (by omega)

namespace Spot

theorem exists_of_mem (h : t ∈ bs.flatMap Block.tiles) : ∃ k post, bs = blocks k (t :: post) := by
  obtain ⟨b, hb, ht⟩ := List.mem_flatMap.mp h
  obtain ⟨before, after, rfl⟩ := List.append_of_mem hb
  obtain ⟨pre, post, htiles⟩ := List.append_of_mem ht
  refine ⟨⟨before, b.base, b.size, pre, after⟩, post, ?_⟩
  rw [blocks, ← htiles]

theorem tiles_perm (k : Spot) (ts : List Tile) : ((k.blocks ts).flatMap Block.tiles).Perm (ts ++ k.rest) := by
  rw [List.perm_iff_count]
  intro t
  simp only [blocks, rest, List.flatMap_append, List.flatMap_cons, List.count_append]
  omega

theorem extents_eq (k : Spot) (ts : List Tile) : (k.blocks ts).map Block.extent = k.extents := by
  simp [blocks, extents, Block.extent]

theorem blocks_step (k : Spot) (t : Tile) (ts : List Tile) : (k.step t).blocks ts = k.blocks (t :: ts) := by
  simp [blocks, step]

theorem rest_step (k : Spot) (t : Tile) : (k.step t).rest.Perm (t :: k.rest) := by
  simp only [rest, step]
  rw [List.append_assoc]
  exact List.perm_middle

end Spot

theorem Layout.placed_spot (h : Layout (k.blocks ts)) : Placed k.extents (ts ++ k.rest) := by
  have := h.placed_tiles
  rw [Spot.extents_eq] at this
  exact this.perm (k.tiles_perm ts)

theorem Layout.run (h : Layout (k.blocks ts)) :
    ∃ p a q, Run false (k.base + 24) k.pre p a ∧ Run p a ts q (k.base + k.size) := by
  have hb : (⟨k.base, k.size, k.pre ++ ts⟩ : Block) ∈ k.blocks ts := by simp [Spot.blocks]
  obtain ⟨q, hq⟩ := (h.tiled _ hb).run
  obtain ⟨p, a, h1, h2⟩ := run_append.mp hq
  exact ⟨p, a, q, h1, h2⟩

theorem Layout.lastOnly (h : Layout (k.blocks ts)) (hne : ts ≠ []) : LastOnly ts := by
  have hb : (⟨k.base, k.size, k.pre ++ ts⟩ : Block) ∈ k.blocks ts := by simp [Spot.blocks]
  exact ((lastOnly_append hne).mp (h.tiled _ hb).last).2

/-- The tile at a place knows whether the one before it is free. -/
theorem Layout.pred_of_predFree (h : Layout (k.blocks (t :: ts))) (hf : t.predFree = true) :
    ∃ k' d, k = Spot.step k' d ∧ d.free = true ∧ d.stop = t.addr := by
  obtain ⟨p, a, q, h1, rfl, rfl, _⟩ := h.run
  rcases List.eq_nil_or_concat k.pre with hnil | ⟨pre, d, hd⟩
  · rw [hnil] at h1
    rw [h1.1] at hf
    exact absurd hf (by decide)
  · rw [List.concat_eq_append] at hd
    rw [hd] at h1
    obtain ⟨q', b, _, _, _, hq, hb⟩ := run_append.mp h1
    exact ⟨{ k with pre := pre }, d, by rw [Spot.step, ← hd], hq ▸ hf, hb.symm⟩

/-- Coalescing of all blocks, read off the flags. -/
theorem Layout.coalesced_iff (h : Layout bs) :
    (∀ b ∈ bs, Coalesced b.tiles) ↔ Quiet (bs.flatMap Block.tiles) := by
  have hb (b : Block) (hb : b ∈ bs) : Coalesced b.tiles ↔ Quiet b.tiles := by
    obtain ⟨q, hq⟩ := (h.tiled b hb).run
    rw [← hq.coalesced_iff]
    simp
  constructor
  · intro hc t ht
    obtain ⟨b, hbm, htb⟩ := List.mem_flatMap.mp ht
    exact (hb b hbm).mp (hc b hbm) t htb
  · intro hq b hbm
    exact (hb b hbm).mpr fun t ht => hq t (List.mem_flatMap.mpr ⟨b, hbm, ht⟩)

/-- Cutting the tiles from a place on in another way keeps a layout. -/
theorem Layout.recut (h : Layout (k.blocks ts)) (hne : ts ≠ []) (hne' : ts' ≠ [])
    (hrun : ∀ p a q e, Run p a ts q e → ∃ q', Run p a ts' q' e) (hlast : LastOnly ts → LastOnly ts')
    (hsound : ∀ t ∈ ts', t.Sound) : Layout (k.blocks ts') := by
  have hb : (⟨k.base, k.size, k.pre ++ ts⟩ : Block) ∈ k.blocks ts := by simp [Spot.blocks]
  have hother : ∀ c, c ∈ k.before ∨ c ∈ k.after → c ∈ k.blocks ts := by
    intro c hc
    rcases hc with hc | hc <;> simp [Spot.blocks, hc]
  have htiled : (⟨k.base, k.size, k.pre ++ ts'⟩ : Block).Tiled := by
    obtain ⟨p, a, q, h1, h2⟩ := h.run
    obtain ⟨q', h2'⟩ := hrun p a q _ h2
    obtain ⟨hl1, hl2⟩ := (lastOnly_append hne).mp (h.tiled _ hb).last
    refine ⟨by simp [hne'], ⟨q', run_append.mpr ⟨p, a, h1, h2'⟩⟩,
      (lastOnly_append hne').mpr ⟨hl1, hlast hl2⟩, fun t ht => ?_⟩
    rcases List.mem_append.mp ht with ht | ht
    · exact (h.tiled _ hb).sound t (by simp [ht])
    · exact hsound t ht
  have hmem : ∀ c ∈ k.blocks ts', (c ∈ k.before ∨ c ∈ k.after) ∨ c = ⟨k.base, k.size, k.pre ++ ts'⟩ := by
    intro c hc
    simp only [Spot.blocks, List.mem_append, List.mem_cons] at hc
    tauto
  refine ⟨fun c hc => ?_, fun c hc => ?_, ?_⟩
  · rcases hmem c hc with hc | rfl
    · exact h.tiled c (hother c hc)
    · exact htiled
  · rcases hmem c hc with hc | rfl
    · exact h.placed c (hother c hc)
    · exact h.placed ⟨k.base, k.size, k.pre ++ ts⟩ hb
  · -- the extents of the blocks are the same
    have hext (us : List Tile) : (k.blocks us).Pairwise Block.Apart ↔
        k.extents.Pairwise (fun b c => b.1 + b.2 ≤ c.1 ∨ c.1 + c.2 ≤ b.1) := by
      rw [← Spot.extents_eq k us, List.pairwise_map]
      rfl
    exact (hext ts').mpr ((hext ts).mp h.apart)

end XviOs.Allocator
