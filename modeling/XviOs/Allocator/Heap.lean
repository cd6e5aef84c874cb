import Mathlib.Data.List.Sort
import XviOs.Allocator.Chunk
import XviOs.Allocator.Tile

namespace XviOs.Allocator

open SizeClass Tile Chunk

/-- The tiles follow one another without gaps from address `a` to `a'`. -/
def Abut : Nat → List Tile → Nat → Prop
  | a, [], a' => a' = a
  | a, t :: ts, a' => t.addr = a ∧ Abut t.stop ts a'

/-- The tiles abut, and the `PredFree` flag of each says whether the tile before
it is free. Before the first one stands a tile that is free iff `p`, and `p'`
says this of the last. -/
def Run : Bool → Nat → List Tile → Bool → Nat → Prop
  | p, a, [], p', a' => p' = p ∧ a' = a
  | p, a, t :: ts, p', a' => t.addr = a ∧ t.predFree = p ∧ Run t.free t.stop ts p' a'

/-- The `Last` flag is set on the final tile and on no other. -/
def LastOnly : List Tile → Prop
  | [] => True
  | t :: ts => t.last = ts.isEmpty ∧ LastOnly ts

/-- No two neighbours are both free. -/
def Coalesced (ts : List Tile) : Prop := ts.IsChain (fun t u => ¬ (t.free = true ∧ u.free = true))

structure Tile.Sound (t : Tile) : Prop where
  min : chunkMinSize ≤ t.size
  size_mod : t.size % 8 = 0
  aligned : t.addr % 16 = 8

def Tile.Apart (t u : Tile) : Prop := t.stop ≤ u.addr ∨ u.stop ≤ t.addr

/-- A memory block, with the chunks it is cut into. -/
structure Block where
  base : Nat
  size : Nat
  tiles : List Tile

namespace Block

/-- The address of the first chunk, after the block header. -/
def start (b : Block) : Nat := b.base + 24

def stop (b : Block) : Nat := b.base + b.size

def extent (b : Block) : Nat × Nat := (b.base, b.size)

def Apart (b c : Block) : Prop := b.stop ≤ c.base ∨ c.stop ≤ b.base

structure Tiled (b : Block) : Prop where
  nonempty : b.tiles ≠ []
  run : ∃ p, Run false b.start b.tiles p b.stop
  last : LastOnly b.tiles
  sound : ∀ t ∈ b.tiles, t.Sound

end Block

/-- Memory blocks that lie apart and are tiled by their chunks. -/
structure Layout (bs : List Block) : Prop where
  tiled : ∀ b ∈ bs, b.Tiled
  placed : ∀ b ∈ bs, 0 < b.base ∧ b.base % 16 = 0 ∧ b.stop ≤ 2 ^ 64
  apart : bs.Pairwise Block.Apart

/-- The addresses and sizes of the free tiles. -/
def freeChunks (ts : List Tile) : List (Nat × Nat) := (ts.filter Tile.free).map (fun t => (t.addr, t.size))

/-- The addresses and sizes of the tiles in use. -/
def liveChunks (ts : List Tile) : List (Nat × Nat) :=
  (ts.filter (fun t => !t.free)).map (fun t => (t.addr, t.size))

/-- The number of the tiles in use, and the sum of their sizes. -/
def liveUsage (ts : List Tile) : Nat × Nat := ((liveChunks ts).length, ((liveChunks ts).map Prod.snd).sum)

/-- No free tile says that its predecessor is free. -/
def Quiet (ts : List Tile) : Prop := ∀ t ∈ ts, t.free = true → t.predFree = false

/-- The bins hold the chunks of `l` (address and size), each in the one bin of
its size. -/
structure Binned (bins : Nat → List (Nat × Nat)) (l : List (Nat × Nat)) : Prop where
  mem : ∀ i x, x ∈ bins i ↔ i = sizeToBinIndex x.2 ∧ x ∈ l
  nodup : ∀ i, (bins i).Nodup

/-- Every bin is in ascending order of sizes. -/
def SortedBins (bins : Nat → List (Nat × Nat)) : Prop := ∀ i, (bins i).Pairwise (fun x y => x.2 ≤ y.2)

/-- What an arena is for: blocks cut into chunks, and the free chunks sorted
into bins by their size. -/
structure Heap where
  blocks : List Block
  bins : Nat → List (Nat × Nat)

namespace Heap

def tiles (h : Heap) : List Tile := h.blocks.flatMap Block.tiles

def extents (h : Heap) : List (Nat × Nat) := h.blocks.map Block.extent

structure Valid (h : Heap) : Prop where
  layout : Layout h.blocks
  binned : Binned h.bins (freeChunks h.tiles)

def Coalesced (h : Heap) : Prop := ∀ b ∈ h.blocks, Allocator.Coalesced b.tiles

def Sorted (h : Heap) : Prop := SortedBins h.bins

end Heap

section Decidable

instance Run.decidable : ∀ p a ts p' a', Decidable (Run p a ts p' a')
  | p, a, [], p', a' => inferInstanceAs (Decidable (p' = p ∧ a' = a))
  | p, a, t :: ts, p', a' =>
      have := Run.decidable t.free t.stop ts p' a'
      inferInstanceAs (Decidable (t.addr = a ∧ t.predFree = p ∧ Run t.free t.stop ts p' a'))

instance LastOnly.decidable : ∀ ts, Decidable (LastOnly ts)
  | [] => inferInstanceAs (Decidable True)
  | t :: ts =>
      have := LastOnly.decidable ts
      inferInstanceAs (Decidable (t.last = ts.isEmpty ∧ LastOnly ts))

instance (t : Tile) : Decidable t.Sound :=
  decidable_of_iff (chunkMinSize ≤ t.size ∧ t.size % 8 = 0 ∧ t.addr % 16 = 8)
    ⟨fun ⟨h1, h2, h3⟩ => ⟨h1, h2, h3⟩, fun ⟨h1, h2, h3⟩ => ⟨h1, h2, h3⟩⟩

instance (b : Block) : Decidable b.Tiled :=
  decidable_of_iff (b.tiles ≠ [] ∧ (∃ p, Run false b.start b.tiles p b.stop) ∧ LastOnly b.tiles ∧
      ∀ t ∈ b.tiles, t.Sound)
    ⟨fun ⟨h1, h2, h3, h4⟩ => ⟨h1, h2, h3, h4⟩, fun ⟨h1, h2, h3, h4⟩ => ⟨h1, h2, h3, h4⟩⟩

instance : DecidableRel Block.Apart := fun b c => inferInstanceAs (Decidable (b.stop ≤ c.base ∨ c.stop ≤ b.base))

instance (bs : List Block) : Decidable (Layout bs) :=
  decidable_of_iff ((∀ b ∈ bs, b.Tiled) ∧ (∀ b ∈ bs, 0 < b.base ∧ b.base % 16 = 0 ∧ b.stop ≤ 2 ^ 64) ∧
      bs.Pairwise Block.Apart)
    ⟨fun ⟨h1, h2, h3⟩ => ⟨h1, h2, h3⟩, fun ⟨h1, h2, h3⟩ => ⟨h1, h2, h3⟩⟩

instance (ts : List Tile) : Decidable (Quiet ts) :=
  inferInstanceAs (Decidable (∀ t ∈ ts, t.free = true → t.predFree = false))

end Decidable

section Run

variable {p p' q f : Bool} {a a' e e' lo hi : Nat} {t u : Tile} {ts us pre post old new : List Tile}

theorem run_append : Run p a (ts ++ us) p' a' ↔ ∃ q b, Run p a ts q b ∧ Run q b us p' a' := by
  induction ts generalizing p a with
  | nil =>
      constructor
      · intro h
        exact ⟨p, a, ⟨rfl, rfl⟩, h⟩
      · rintro ⟨q, b, ⟨rfl, rfl⟩, h⟩
        exact h
  | cons t ts ih =>
      simp only [List.cons_append, Run, ih]
      constructor
      · rintro ⟨h1, h2, q, b, h3, h4⟩
        exact ⟨q, b, ⟨h1, h2, h3⟩, h4⟩
      · rintro ⟨q, b, ⟨h1, h2, h3⟩, h4⟩
        exact ⟨h1, h2, q, b, h3, h4⟩

theorem Run.abut (h : Run p a ts p' a') : Abut a ts a' := by
  induction ts generalizing p a with
  | nil => exact h.2
  | cons t ts ih => exact ⟨h.1, ih h.2.2⟩

theorem Abut.le (h : Abut a ts a') : a ≤ a' := by
  induction ts generalizing a with
  | nil => exact h.ge
  | cons t ts ih =>
      obtain ⟨rfl, ht⟩ := h
      have := ih ht
      simp only [stop] at this
      omega

theorem Abut.bounds (h : Abut a ts a') : ∀ t ∈ ts, a ≤ t.addr ∧ t.stop ≤ a' := by
  induction ts generalizing a with
  | nil => simp
  | cons t ts ih =>
      obtain ⟨rfl, ht⟩ := h
      have hle := ht.le
      intro u hu
      rcases List.mem_cons.mp hu with rfl | hu
      · exact ⟨le_rfl, hle⟩
      · obtain ⟨h1, h2⟩ := ih ht u hu
        simp only [stop] at h1
        exact ⟨by omega, h2⟩

/-- Abutting tiles lie in ascending order. -/
theorem Abut.pairwise (h : Abut a ts a') : ts.Pairwise (fun t u => t.stop ≤ u.addr) := by
  induction ts generalizing a with
  | nil => exact List.Pairwise.nil
  | cons t ts ih => exact List.pairwise_cons.mpr ⟨fun u hu => (h.2.bounds u hu).1, ih h.2⟩

theorem Run.head_addr (h : Run p a ts p' a') : ∀ d ∈ ts.head?, d.addr = a := by
  cases ts with
  | nil => simp
  | cons t ts =>
      intro d hd
      obtain rfl : t = d := by simpa using hd
      exact h.1

theorem Run.head_predFree (h : Run p a ts p' a') : ∀ d ∈ ts.head?, d.predFree = p := by
  cases ts with
  | nil => simp
  | cons t ts =>
      intro d hd
      obtain rfl : t = d := by simpa using hd
      exact h.2.1

/-- Whether a tile is free is told to the one that follows it. -/
theorem Run.setPredFree (f : Bool) (h : Run p a ts p' a') : ∃ q, Run f a (setPredFree f ts) q a' := by
  cases ts with
  | nil => exact ⟨f, rfl, h.2⟩
  | cons t ts => exact ⟨p', h.1, rfl, h.2.2⟩

/-- Telling the first tile what its flag already says changes nothing. -/
theorem Run.setPredFree_eq (h : Run p a ts p' a') : Allocator.setPredFree p ts = ts := by
  cases ts with
  | nil => rfl
  | cons t ts => rw [Allocator.setPredFree, ← h.2.1]

theorem lastOnly_append (hne : us ≠ []) :
    LastOnly (ts ++ us) ↔ (∀ t ∈ ts, t.last = false) ∧ LastOnly us := by
  induction ts with
  | nil => simp
  | cons t ts ih =>
      have hempty : (ts ++ us).isEmpty = false := by
        cases ts <;> cases us <;> simp_all
      simp [LastOnly, ih, hempty, and_assoc]

@[simp]
theorem lastOnly_setPredFree (f : Bool) : LastOnly (setPredFree f ts) ↔ LastOnly ts := by
  cases ts <;> simp [setPredFree, LastOnly]

@[simp]
theorem setPredFree_setPredFree (f g : Bool) (ts : List Tile) : setPredFree f (setPredFree g ts) = setPredFree f ts := by
  cases ts <;> rfl

theorem abut_setPredFree (f : Bool) : Abut a (setPredFree f ts) a' ↔ Abut a ts a' := by
  cases ts <;> rfl

theorem setPredFree_sound (f : Bool) (h : ∀ t ∈ ts, t.Sound) : ∀ t ∈ setPredFree f ts, t.Sound := by
  cases ts with
  | nil => exact h
  | cons t ts =>
      intro u hu
      rcases List.mem_cons.mp hu with rfl | hu
      · obtain ⟨h1, h2, h3⟩ := h t (by simp)
        exact ⟨h1, h2, h3⟩
      · exact h u (by simp [hu])

/-- Where the flags are right, coalescing can be read off them. -/
theorem Run.coalesced_iff (h : Run p a ts p' a') :
    (p = true → ∀ t ∈ ts.head?, t.free = false) ∧ Coalesced ts ↔
      Quiet ts := by
  induction ts generalizing p a with
  | nil => simp [Coalesced, Quiet]
  | cons t ts ih =>
      obtain ⟨_, rfl, ht⟩ := h
      have ih' := ih ht
      have hhead : (∀ d ∈ (t :: ts).head?, d.free = false) ↔ t.free = false := by simp
      have hchain : Coalesced (t :: ts) ↔ (t.free = true → ∀ d ∈ ts.head?, d.free = false) ∧ Coalesced ts := by
        simp [Coalesced, List.isChain_cons]
        tauto
      rw [hhead, hchain, ih', Quiet, Quiet, List.forall_mem_cons]
      cases t.free <;> cases t.predFree <;> simp

end Run

section FreeChunks

variable {ts us : List Tile} {t : Tile} {x : Nat × Nat}

@[simp]
theorem freeChunks_append (ts us : List Tile) : freeChunks (ts ++ us) = freeChunks ts ++ freeChunks us := by
  simp [freeChunks]

@[simp]
theorem freeChunks_setPredFree (f : Bool) (ts : List Tile) : freeChunks (setPredFree f ts) = freeChunks ts := by
  cases ts with
  | nil => rfl
  | cons t ts => cases h : t.free <;> simp [freeChunks, setPredFree, h]

theorem freeChunks_cons_free (h : t.free = true) (ts : List Tile) :
    freeChunks (t :: ts) = (t.addr, t.size) :: freeChunks ts := by
  simp [freeChunks, h]

theorem freeChunks_cons_live (h : t.free = false) (ts : List Tile) : freeChunks (t :: ts) = freeChunks ts := by
  simp [freeChunks, h]

theorem mem_freeChunks : x ∈ freeChunks ts ↔ ∃ t ∈ ts, t.free = true ∧ (t.addr, t.size) = x := by
  simp [freeChunks, and_assoc]

@[simp]
theorem liveChunks_append (ts us : List Tile) : liveChunks (ts ++ us) = liveChunks ts ++ liveChunks us := by
  simp [liveChunks]

@[simp]
theorem liveChunks_setPredFree (f : Bool) (ts : List Tile) : liveChunks (setPredFree f ts) = liveChunks ts := by
  cases ts with
  | nil => rfl
  | cons t ts => cases h : t.free <;> simp [liveChunks, setPredFree, h]

theorem liveChunks_cons_free (h : t.free = true) (ts : List Tile) : liveChunks (t :: ts) = liveChunks ts := by
  simp [liveChunks, h]

theorem liveChunks_cons_live (h : t.free = false) (ts : List Tile) :
    liveChunks (t :: ts) = (t.addr, t.size) :: liveChunks ts := by
  simp [liveChunks, h]

theorem mem_liveChunks : x ∈ liveChunks ts ↔ ∃ t ∈ ts, t.free = false ∧ (t.addr, t.size) = x := by
  simp [liveChunks, and_assoc]

theorem liveChunks_perm (h : ts.Perm us) : (liveChunks ts).Perm (liveChunks us) := (h.filter _).map _

theorem Quiet.perm (h : Quiet ts) (hp : ts.Perm us) : Quiet us := fun t ht => h t (hp.mem_iff.mpr ht)

theorem quiet_append : Quiet (ts ++ us) ↔ Quiet ts ∧ Quiet us := List.forall_mem_append

theorem quiet_cons : Quiet (t :: ts) ↔ (t.free = true → t.predFree = false) ∧ Quiet ts := List.forall_mem_cons

/-- What follows a free tile is in use. -/
theorem Quiet.head_live (h : Quiet ts) (hp : ∀ d ∈ ts.head?, d.predFree = true) : ∀ d ∈ ts.head?, d.free = false := by
  intro d hd
  have hq := h d (List.mem_of_mem_head? hd)
  rw [hp d hd] at hq
  simpa using hq

theorem Quiet.told_false (h : Quiet ts) : Quiet (setPredFree false ts) := by
  cases ts with
  | nil => exact h
  | cons t ts => exact quiet_cons.mpr ⟨fun _ => rfl, (quiet_cons.mp h).2⟩

theorem Quiet.told_true (h : Quiet ts) (hd : ∀ d ∈ ts.head?, d.free = false) : Quiet (setPredFree true ts) := by
  cases ts with
  | nil => exact h
  | cons t ts =>
      refine quiet_cons.mpr ⟨fun hf => ?_, (quiet_cons.mp h).2⟩
      exact absurd hf (by simp [hd t (by simp)])

theorem freeChunks_perm (h : ts.Perm us) : (freeChunks ts).Perm (freeChunks us) := (h.filter _).map _

theorem Binned.congr {bins : Nat → List (Nat × Nat)} {l l' : List (Nat × Nat)} (h : Binned bins l)
    (hl : ∀ x, x ∈ l ↔ x ∈ l') : Binned bins l' :=
  ⟨fun i x => by rw [h.mem, hl], h.nodup⟩

end FreeChunks

end XviOs.Allocator
