import XviOs.Library.BitField
import XviOs.Allocator.Chunk

namespace XviOs.Allocator

open Library.LittleEndian Library.Bits Chunk

/-- What a chunk header says: the size and the three flags packed into
`chunk_data`, together with the address of the header. -/
structure Tile where
  addr : Nat
  size : Nat
  free : Bool
  predFree : Bool
  last : Bool
  deriving DecidableEq

def flagWord (free predFree last : Bool) : Nat :=
  free.toNat * flagFree + predFree.toNat * flagPredFree + last.toNat * flagLast

namespace Tile

def flags (t : Tile) : Nat := flagWord t.free t.predFree t.last

def word (t : Tile) : Nat := t.size + t.flags

/-- The first address after the chunk. -/
def stop (t : Tile) : Nat := t.addr + t.size

/-- The memory with the header of `t` stored. -/
def put (t : Tile) (m : Mem) : Mem := write64 m t.addr t.word

/-- The memory with the footer of `t` stored. -/
def putFooter (t : Tile) (m : Mem) : Mem := write64 m (t.stop - 8) t.size

structure In (t : Tile) (m : Mem) : Prop where
  header : read64 m t.addr = t.word
  size_mod : t.size % 8 = 0

def Footed (t : Tile) (m : Mem) : Prop := read64 m (t.stop - 8) = t.size

end Tile

variable {m m' : Mem} {t u : Tile}

theorem flagWord_lt (f p l : Bool) : flagWord f p l < 8 := by
  cases f <;> cases p <;> cases l <;> decide

theorem flagWord_or_free (f p l : Bool) : flagWord f p l ||| flagFree = flagWord true p l := by
  cases f <;> cases p <;> cases l <;> rfl

theorem flagWord_or_predFree (f p l : Bool) : flagWord f p l ||| flagPredFree = flagWord f true l := by
  cases f <;> cases p <;> cases l <;> rfl

theorem flagWord_or_last (f p l : Bool) : flagWord f p l ||| flagLast = flagWord f p true := by
  cases f <;> cases p <;> cases l <;> rfl

theorem flagWord_clear_free (f p l : Bool) :
    flagWord f p l &&& clearing flagFree = flagWord false p l := by
  cases f <;> cases p <;> cases l <;> rfl

theorem flagWord_clear_predFree (f p l : Bool) :
    flagWord f p l &&& clearing flagPredFree = flagWord f false l := by
  cases f <;> cases p <;> cases l <;> rfl

theorem flagWord_clear_last (f p l : Bool) :
    flagWord f p l &&& clearing flagLast = flagWord f p false := by
  cases f <;> cases p <;> cases l <;> rfl

theorem or_flags {s f : Nat} (hs : s % 8 = 0) (hf : f < 8) : s ||| f = s + f := by
  have h := Nat.two_pow_add_eq_or_of_lt (show f < 2 ^ 3 from hf) (s / 8)
  have hs' : 2 ^ 3 * (s / 8) = s := by omega
  rw [hs'] at h
  exact h.symm

theorem and_flagMask (w : Nat) : w &&& flagMask = w % 8 :=
  Nat.and_two_pow_sub_one_eq_mod w 3

theorem and_sizeMask {w : Nat} (h : w < 2 ^ 64) : w &&& sizeMask = w - w % 8 :=
  and_alignMask (by decide : 3 ≤ 64) h

namespace Tile

theorem word_mod (hs : t.size % 8 = 0) : t.word % 8 = t.flags := by
  have h := flagWord_lt t.free t.predFree t.last
  simp only [word, flags] at *
  omega

theorem In.word_lt (h : t.In m) : t.word < 2 ^ 64 := by
  rw [← h.header]
  exact read64_lt m t.addr

theorem In.size_lt (h : t.In m) : t.size < 2 ^ 64 := by
  have := h.word_lt
  simp only [word] at this
  omega

theorem In.flags_eq (h : t.In m) : Chunk.flags m t.addr = t.flags := by
  rw [Chunk.flags, chunkData, h.header, and_flagMask, word_mod h.size_mod]

theorem In.size_eq (h : t.In m) : Chunk.size m t.addr = t.size := by
  rw [Chunk.size, chunkData, h.header, and_sizeMask h.word_lt, word_mod h.size_mod, word]
  omega

theorem In.isFree_eq (h : t.In m) : isFree m t.addr = t.free := by
  rw [isFree, h.flags_eq, flags]
  cases t.free <;> cases t.predFree <;> cases t.last <;> rfl

theorem In.isPredecessorFree_eq (h : t.In m) : isPredecessorFree m t.addr = t.predFree := by
  rw [isPredecessorFree, h.flags_eq, flags]
  cases t.free <;> cases t.predFree <;> cases t.last <;> rfl

theorem In.isLast_eq (h : t.In m) : isLast m t.addr = t.last := by
  rw [isLast, h.flags_eq, flags]
  cases t.free <;> cases t.predFree <;> cases t.last <;> rfl

theorem In.successor_eq (h : t.In m) : successor m t.addr = if t.last then 0 else t.stop := by
  rw [successor, h.isLast_eq, h.size_eq, stop]

theorem In.footer_eq (h : t.In m) : footer m t.addr = t.stop - 8 := by
  rw [footer, h.size_eq, stop, sizeofFreeChunkFooter]

theorem setSizeAndFlags_eq (hs : t.size % 8 = 0) :
    setSizeAndFlags m t.addr t.size t.flags = t.put m := by
  rw [setSizeAndFlags, put, word, flags, or_flags hs (flagWord_lt _ _ _)]

theorem In.setFlags_eq (h : t.In m) (u : Tile) (ha : u.addr = t.addr) (hs : u.size = t.size) :
    setFlags m t.addr u.flags = u.put m := by
  rw [setFlags, h.size_eq, ← ha, ← hs]
  exact setSizeAndFlags_eq (by rw [hs]; exact h.size_mod)

theorem In.setSize_eq (h : t.In m) {s : Nat} (hs : s % 8 = 0) :
    setSize m t.addr s = { t with size := s }.put m := by
  rw [setSize, h.flags_eq]
  exact @setSizeAndFlags_eq m { t with size := s } hs

theorem In.markLast_eq (h : t.In m) : markLast m t.addr = { t with last := true }.put m := by
  rw [markLast, h.flags_eq, flags, flagWord_or_last]
  exact h.setFlags_eq { t with last := true } rfl rfl

theorem In.markNotLast_eq (h : t.In m) : markNotLast m t.addr = { t with last := false }.put m := by
  rw [markNotLast, h.flags_eq, flags, flagWord_clear_last]
  exact h.setFlags_eq { t with last := false } rfl rfl

theorem In.markPredecessorFree_eq (h : t.In m) :
    markPredecessorFree m t.addr = { t with predFree := true }.put m := by
  rw [markPredecessorFree, h.flags_eq, flags, flagWord_or_predFree]
  exact h.setFlags_eq { t with predFree := true } rfl rfl

theorem In.markPredecessorNotFree_eq (h : t.In m) :
    markPredecessorNotFree m t.addr = { t with predFree := false }.put m := by
  rw [markPredecessorNotFree, h.flags_eq, flags, flagWord_clear_predFree]
  exact h.setFlags_eq { t with predFree := false } rfl rfl

theorem In.setFree_eq (h : t.In m) :
    setFlags m t.addr (Chunk.flags m t.addr ||| flagFree) = { t with free := true }.put m := by
  rw [h.flags_eq, flags, flagWord_or_free]
  exact h.setFlags_eq { t with free := true } rfl rfl

theorem In.setNotFree_eq (h : t.In m) :
    setFlags m t.addr (Chunk.flags m t.addr &&& clearing flagFree) = { t with free := false }.put m := by
  rw [h.flags_eq, flags, flagWord_clear_free]
  exact h.setFlags_eq { t with free := false } rfl rfl

/-- A header fits its word as long as its size, a multiple of 8, does. -/
theorem word_lt (hs : t.size % 8 = 0) (h : t.size < 2 ^ 64) : t.word < 2 ^ 64 := by
  have hf := flagWord_lt t.free t.predFree t.last
  simp only [word, flags]
  omega

theorem put_in (hs : t.size % 8 = 0) (h : t.size < 2 ^ 64) : t.In (t.put m) :=
  ⟨read64_write64_self m t.addr (word_lt hs h), hs⟩

theorem In.congr (h : t.In m) (he : EqOn m m' t.addr (t.addr + 8)) : t.In m' :=
  ⟨(read64_congr he).trans h.header, h.size_mod⟩

theorem Footed.congr (h : t.Footed m) (he : EqOn m m' (t.stop - 8) (t.stop - 8 + 8)) : t.Footed m' :=
  (read64_congr he).trans h

theorem put_eqOn (t : Tile) (m : Mem) {lo hi : Nat} (h : hi ≤ t.addr ∨ t.addr + 8 ≤ lo) :
    EqOn m (t.put m) lo hi :=
  write64_eqOn m t.addr t.word h

theorem putFooter_eqOn (t : Tile) (m : Mem) {lo hi : Nat} (h : hi ≤ t.stop - 8 ∨ t.stop - 8 + 8 ≤ lo) :
    EqOn m (t.putFooter m) lo hi :=
  write64_eqOn m (t.stop - 8) t.size h

theorem putFooter_footed (h : t.size < 2 ^ 64) : t.Footed (t.putFooter m) :=
  read64_write64_self m _ h

theorem In.put_of_disjoint (h : t.In m) (hd : u.addr + 8 ≤ t.addr ∨ t.addr + 8 ≤ u.addr) : t.In (u.put m) :=
  h.congr (u.put_eqOn m (by omega))

theorem In.putFooter_of_disjoint (h : t.In m) (hd : u.stop - 8 + 8 ≤ t.addr ∨ t.addr + 8 ≤ u.stop - 8) :
    t.In (u.putFooter m) :=
  h.congr (u.putFooter_eqOn m (by omega))

theorem Footed.put_of_disjoint (h : t.Footed m)
    (hd : u.addr + 8 ≤ t.stop - 8 ∨ t.stop - 8 + 8 ≤ u.addr) : t.Footed (u.put m) :=
  h.congr (u.put_eqOn m (by omega))

theorem put_put (h : u.addr = t.addr) : t.put (u.put m) = t.put m := by
  rw [put, put, h]
  exact writeLE_writeLE m t.addr 8 u.word t.word

/-- Storing a header that is there already changes nothing. -/
theorem In.put_self (h : t.In m) : t.put m = m := by
  rw [put, ← h.header]
  exact writeLE_readLE m t.addr 8

end Tile

/-- The tile with its `PredFree` flag telling `f`, in the first place of the list. -/
def setPredFree (f : Bool) : List Tile → List Tile
  | [] => []
  | t :: ts => { t with predFree := f } :: ts

/-- Apart from the bytes from `lo` up to `hi`, at most the header of the tile
that follows, at `hi`, differs. -/
def Effect (lo hi : Nat) (post : List Tile) (m m' : Mem) : Prop :=
  ∀ a b, (b ≤ lo ∨ hi ≤ a) → (post = [] ∨ b ≤ hi ∨ hi + 8 ≤ a) → EqOn m m' a b

/-- The chunk at `t` is followed by the tiles `post` of its block. -/
structure Followed (m : Mem) (t : Tile) (post : List Tile) : Prop where
  last : t.last = post.isEmpty
  next : ∀ d ∈ post.head?, d.In m ∧ d.addr = t.stop

end XviOs.Allocator
