import XviOs.Library.Runs
import XviOs.Allocator.AllocateSpec
import XviOs.Allocator.Realise

namespace XviOs.Allocator

open Library.Runs Chunk Tile SizeClass

/-- The calls of an arena's clients. -/
inductive Call
  | addMemoryBlock (block size : Nat)
  | allocate (size : Nat)
  | free (memory : Nat)
  | resize (memory size : Nat)

/-- A live allocation: the pointer and the size that `allocate` returned, and the
size it was asked for. -/
structure Allocation where
  ptr : Nat
  size : Nat
  requested : Nat
  deriving DecidableEq

/-- An arena together with the allocations its clients hold. -/
structure Session where
  arena : Arena
  live : List Allocation

namespace Session

/-- The allocations without the one at `ptr`. -/
def release (live : List Allocation) (ptr : Nat) : List Allocation := live.eraseP (fun x => x.ptr = ptr)

def step (σ : Session) : Call → Option Session
  | .addMemoryBlock block blockSize => do
      let arena ← σ.arena.addMemoryBlock block blockSize
      return { σ with arena := arena }
  | .allocate n => do
      let ((ptr, userSize), arena) ← σ.arena.allocate n
      return ⟨arena, if ptr = 0 then σ.live else ⟨ptr, userSize, n⟩ :: σ.live⟩
  | .free ptr => do
      let arena ← σ.arena.free ptr
      return ⟨arena, release σ.live ptr⟩
  | .resize ptr n => do
      let (userSize, arena) ← σ.arena.resize ptr n
      return ⟨arena, if n = 0 then release σ.live ptr
        else σ.live.map (fun x => if x.ptr = ptr then { x with size := userSize } else x)⟩

/-- The calls of a client that only allocates, and frees what it holds. -/
def AllocateFree (σ : Session) : Call → Prop
  | .allocate n => n < 2 ^ 64
  | .free ptr => ∃ x ∈ σ.live, x.ptr = ptr
  | _ => False

/-- The memory of the live allocations lies apart, inside of blocks, aligned, and
is as large as requested. -/
structure LiveWithin (live : List Allocation) (h : Heap) : Prop where
  apart : live.Pairwise (fun x y => x.ptr + x.size ≤ y.ptr ∨ y.ptr + y.size ≤ x.ptr)
  within : ∀ x ∈ live, ∃ b ∈ h.blocks, b.start ≤ x.ptr ∧ x.ptr + x.size ≤ b.stop
  aligned : ∀ x ∈ live, x.ptr % 16 = 0
  large : ∀ x ∈ live, x.requested ≤ x.size

/-- What every step of a session keeps. -/
def Sound (σ : Session) : Prop :=
  ∃ h : Heap, h.Valid ∧ h.Coalesced ∧ h.Sorted ∧ σ.arena.Stores h ∧ LiveWithin σ.live h

end Session

/-- The arena consists of blocks that are one free chunk each. -/
def Arena.Initial (s : Arena) : Prop :=
  ∃ h : Heap, h.Valid ∧ h.Sorted ∧ s.Stores h ∧ ∀ b ∈ h.blocks, ∃ t, b.tiles = [t] ∧ t.free = true

/-- The address and size of the chunk of an allocation. -/
def Allocation.chunk (x : Allocation) : Nat × Nat := (x.ptr - 8, x.size + 8)

/-- The allocations of a session are the chunks in use, and nothing else is. -/
structure Tracks (live : List Allocation) (h : Heap) : Prop where
  chunks : (live.map Allocation.chunk).Perm (liveChunks h.tiles)
  ptr_ge : ∀ x ∈ live, 8 ≤ x.ptr

namespace Session

/-- The session holds the heap, with the statistics off by `gap` and `off`. -/
structure Keeps (gap : Nat → UInt64) (off : UInt64 × UInt64) (σ : Session) (h : Heap) : Prop where
  holds : Holds gap σ.arena h
  quiet : Quiet h.tiles
  tracks : Tracks σ.live h
  usage : σ.arena.usage =
    (UInt64.ofNat (liveUsage h.tiles).1 + off.1, UInt64.ofNat (liveUsage h.tiles).2 + off.2)

/-- The allocations are as large as requested. -/
def Large (live : List Allocation) : Prop := ∀ x ∈ live, x.requested ≤ x.size

variable {gap : Nat → UInt64} {off : UInt64 × UInt64} {σ : Session} {h : Heap} {live : List Allocation}
  {x : Allocation} {n ptr : Nat}

theorem Tracks.exists_tile (ht : Tracks live h) (hx : x ∈ live) :
    ∃ t ∈ h.tiles, t.free = false ∧ t.addr + 8 = x.ptr ∧ t.size = x.size + 8 := by
  obtain ⟨t, htm, hf, he⟩ := mem_liveChunks.mp (ht.chunks.mem_iff.mp (List.mem_map_of_mem hx))
  have h1 : t.addr = x.ptr - 8 := congrArg Prod.fst he
  have h2 : t.size = x.size + 8 := congrArg Prod.snd he
  have := ht.ptr_ge x hx
  exact ⟨t, htm, hf, by omega, h2⟩

theorem Tracks.liveWithin (hl : Layout h.blocks) (ht : Tracks live h) (hlarge : Large live) :
    LiveWithin live h := by
  have hplaced := hl.placed_tiles
  refine ⟨?_, fun x hx => ?_, fun x hx => ?_, hlarge⟩
  · have hchunks : (liveChunks h.tiles).Pairwise (fun a b => a.1 + a.2 ≤ b.1 ∨ b.1 + b.2 ≤ a.1) := by
      rw [liveChunks, List.pairwise_map]
      exact hplaced.apart.filter _
    have hmap := (ht.chunks.pairwise_iff Or.symm).mpr hchunks
    rw [List.pairwise_map] at hmap
    refine hmap.imp_of_mem fun {x y} hx hy hxy => ?_
    have hx8 := ht.ptr_ge x hx
    have hy8 := ht.ptr_ge y hy
    simp only [Allocation.chunk] at hxy
    omega
  · obtain ⟨t, htm, _, ha, hs⟩ := Tracks.exists_tile ht hx
    obtain ⟨b, hb, htb⟩ := List.mem_flatMap.mp htm
    obtain ⟨h1, h2⟩ := (hl.tiled b hb).bounds htb
    simp only [stop] at h2
    exact ⟨b, hb, by omega, by omega⟩
  · obtain ⟨t, htm, _, ha, _⟩ := Tracks.exists_tile ht hx
    have := (hplaced.sound t htm).aligned
    omega

section Steps

theorem step_allocate (hk : Keeps gap off σ h) (hn : n < 2 ^ 64) :
    ∃ σ' h', σ.step (.allocate n) = some σ' ∧ Keeps gap off σ' h' ∧ (h.Sorted → h'.Sorted) ∧
      (Large σ.live → Large σ'.live) := by
  obtain ⟨hs, hq, ht, hu⟩ := hk
  by_cases hfail : n = 0 ∨ largestBin ≤ userSizeToChunkSize n ∨ h.search n = none
  · obtain ⟨s', hs', hh, hu', _⟩ := allocate_fail hs hfail
    exact ⟨⟨s', σ.live⟩, h, by simp [step, hs'], ⟨hh, hq, ht, hu'.trans hu⟩, id, id⟩
  · rw [not_or, not_or] at hfail
    obtain ⟨hn0, hbig, hsome⟩ := hfail
    obtain ⟨x, hx⟩ := Option.ne_none_iff_exists'.mp hsome
    obtain ⟨s', h', size, hs', hh, hq', _, hlive, hsize, hsort, hu'⟩ :=
      allocate_found hs hq hn0 hn (Nat.not_le.mp hbig) hx
    refine ⟨⟨s', ⟨x.1 + 8, size - 8, n⟩ :: σ.live⟩, h', by simp [step, hs'], ⟨hh, hq', ⟨?_, ?_⟩, ?_⟩, hsort, ?_⟩
    · have hchunk : Allocation.chunk ⟨x.1 + 8, size - 8, n⟩ = (x.1, size) :=
        Prod.ext (by simp [Allocation.chunk]) (show size - 8 + 8 = size by omega)
      rw [List.map_cons, hchunk]
      exact (ht.chunks.cons _).trans hlive.symm
    · intro y hy
      rcases List.mem_cons.mp hy with rfl | hy
      · exact Nat.le_add_left 8 x.1
      · exact ht.ptr_ge y hy
    · have hlen := hlive.length_eq
      have hsum := (hlive.map Prod.snd).sum_eq
      simp only [List.length_cons, List.map_cons, List.sum_cons] at hlen hsum
      have hone : UInt64.ofNat 1 = 1 := rfl
      rw [hu', hu]
      simp only [liveUsage, hlen, hsum, UInt64.ofNat_add, Prod.mk.injEq]
      grind
    · intro hlarge y hy
      rcases List.mem_cons.mp hy with rfl | hy
      · show n ≤ size - 8
        omega
      · exact hlarge y hy

/-- An allocation at a pointer, its chunk, and the place of the chunk in the heap. -/
theorem Keeps.exists_worked (hk : Keeps gap off σ h) (hp : ∃ x ∈ σ.live, x.ptr = ptr) :
    ∃ y l₁ l₂ t k post, σ.live = l₁ ++ y :: l₂ ∧ release σ.live ptr = l₁ ++ l₂ ∧ y.chunk = (t.addr, t.size) ∧
      (y.ptr = ptr ∧ t.addr + 8 = ptr ∧ t.free = false ∧ 8 ≤ t.size) ∧
      h.blocks = Spot.blocks k (t :: post) ∧
      Worked gap σ.arena k [] (t :: post) h.bins ∧ h.tiles.Perm ((t :: post) ++ k.rest) ∧
      ((l₁ ++ l₂).map Allocation.chunk).Perm (liveChunks (post ++ k.rest)) := by
  obtain ⟨x, hx, hxp⟩ := hp
  obtain ⟨y, l₁, l₂, _, hy, hsplit, herase⟩ :=
    @List.exists_of_eraseP _ (fun x => x.ptr = ptr) _ _ hx (by simpa using hxp)
  have hyp : y.ptr = ptr := by simpa using hy
  obtain ⟨t, htm, htf, hta, hts⟩ := Tracks.exists_tile hk.tracks (show y ∈ σ.live by simp [hsplit])
  obtain ⟨k, post, hb, hw⟩ := hk.holds.exists_worked htm
  have hperm : h.tiles.Perm ((t :: post) ++ k.rest) := by
    rw [Heap.tiles, hb]
    exact k.tiles_perm _
  have hchunk : y.chunk = (t.addr, t.size) := by rw [Allocation.chunk, ← hta, hts, Nat.add_sub_cancel]
  refine ⟨y, l₁, l₂, t, k, post, hsplit, herase, hchunk, ⟨hyp, hta.trans hyp, htf, by omega⟩, hb, hw, hperm, ?_⟩
  have h1 : (σ.live.map Allocation.chunk).Perm ((t.addr, t.size) :: (l₁ ++ l₂).map Allocation.chunk) := by
    rw [hsplit, ← hchunk, ← List.map_cons]
    exact List.perm_middle.map _
  have h2 : (liveChunks h.tiles).Perm ((t.addr, t.size) :: liveChunks (post ++ k.rest)) := by
    refine (liveChunks_perm hperm).trans ?_
    rw [List.cons_append, liveChunks_cons_live htf]
  exact (h1.symm.trans (hk.tracks.chunks.trans h2)).cons_inv

theorem step_free (hk : Keeps gap off σ h) (hp : ∃ x ∈ σ.live, x.ptr = ptr) :
    ∃ σ' h', σ.step (.free ptr) = some σ' ∧ Keeps gap off σ' h' ∧ (h.Sorted → h'.Sorted) ∧
      (Large σ.live → Large σ'.live) := by
  obtain ⟨y, l₁, l₂, t, k, post, hsplit, herase, _, ⟨_, hptr, htf, _⟩, _, hw, hperm, hothers⟩ := hk.exists_worked hp
  obtain ⟨s', k', ts', bins', hfree, hw', _, hq', hlive, hsort, hu, -⟩ := free_spec hw htf (hk.quiet.perm hperm)
  have hsub : ∀ z ∈ release σ.live ptr, z ∈ σ.live := fun z hz => List.mem_of_mem_eraseP hz
  have hlive' : (liveChunks (Heap.tiles ⟨k'.blocks ts', bins'⟩)).Perm (liveChunks (post ++ k.rest)) := by
    rw [List.cons_append, liveChunks_cons_live htf] at hlive
    exact (liveChunks_perm hw'.tiles_perm).trans hlive.cons_inv.symm
  refine ⟨⟨s', release σ.live ptr⟩, ⟨k'.blocks ts', bins'⟩, by rw [← hptr]; simp [step, hfree],
    ⟨hw'.holds, hq'.perm hw'.tiles_perm.symm, ⟨?_, fun z hz => hk.tracks.ptr_ge z (hsub z hz)⟩, ?_⟩, hsort,
    fun hlarge z hz => hlarge z (hsub z hz)⟩
  · show ((release σ.live ptr).map Allocation.chunk).Perm _
    rw [herase]
    exact hothers.trans hlive'.symm
  · have hold : (liveChunks h.tiles).Perm ((t.addr, t.size) :: liveChunks (Heap.tiles ⟨k'.blocks ts', bins'⟩)) := by
      refine (liveChunks_perm hperm).trans ?_
      rw [List.cons_append, liveChunks_cons_live htf]
      exact hlive'.symm.cons _
    have hlen := hold.length_eq
    have hsum := (hold.map Prod.snd).sum_eq
    simp only [List.length_cons, List.map_cons, List.sum_cons] at hlen hsum
    have hone : UInt64.ofNat 1 = 1 := rfl
    rw [hu, hk.usage]
    simp only [liveUsage, hlen, hsum, UInt64.ofNat_add, Prod.mk.injEq]
    grind

end Steps

/-- The invariant of a session that only allocates and frees. -/
def Invariant (σ : Session) : Prop := ∃ gap off h, Keeps gap off σ h ∧ h.Sorted ∧ Large σ.live

theorem Invariant.sound (hi : σ.Invariant) : σ.Sound := by
  obtain ⟨gap, off, h, ⟨hs, hq, ht, _⟩, hsort, hlarge⟩ := hi
  exact ⟨h, hs.valid, hs.valid.coalesced_iff.mpr hq, hsort, hs.stores, Tracks.liveWithin hs.layout ht hlarge⟩

theorem invariant_initial {s : Arena} (hs : s.Initial) : Invariant ⟨s, []⟩ := by
  obtain ⟨h, hv, hsort, hst, hone⟩ := hs
  have hfree : ∀ t ∈ h.tiles, t.free = true ∧ t.predFree = false := by
    intro t ht
    obtain ⟨b, hb, htb⟩ := List.mem_flatMap.mp ht
    obtain ⟨u, hu, huf⟩ := hone b hb
    obtain ⟨p, hrun⟩ := (hv.layout.tiled b hb).run
    rw [hu] at htb hrun
    obtain rfl : t = u := by simpa using htb
    exact ⟨huf, hrun.2.1⟩
  have hnone : liveChunks h.tiles = [] := by
    rw [liveChunks, List.filter_eq_nil_iff.mpr fun t ht => by simp [(hfree t ht).1]]
    rfl
  refine ⟨_, (s.usage.1, s.usage.2), h, ⟨hst.holds hv, fun t ht _ => (hfree t ht).2, ⟨?_, by simp⟩, ?_⟩, hsort,
    by simp [Large]⟩
  · rw [hnone]
    exact List.Perm.refl _
  · simp [liveUsage, hnone]

/-- Every call that a client of `allocate` and `free` may make comes back, and
keeps the invariant. -/
theorem step_invariant (hi : σ.Invariant) {c : Call} (hc : σ.AllocateFree c) :
    ∃ σ', σ.step c = some σ' ∧ σ'.Invariant := by
  obtain ⟨gap, off, h, hk, hsort, hlarge⟩ := hi
  cases c with
  | allocate n =>
      obtain ⟨σ', h', hs, hk', hsort', hlarge'⟩ := step_allocate hk hc
      exact ⟨σ', hs, gap, off, h', hk', hsort' hsort, hlarge' hlarge⟩
  | free ptr =>
      obtain ⟨σ', h', hs, hk', hsort', hlarge'⟩ := step_free hk hc
      exact ⟨σ', hs, gap, off, h', hk', hsort' hsort, hlarge' hlarge⟩
  | addMemoryBlock block blockSize => exact hc.elim
  | resize ptr n => exact hc.elim

theorem run_invariant {s : Arena} {cs : List Call} (hs : s.Initial)
    (hr : Execution step AllocateFree ⟨s, []⟩ cs σ) : σ.Invariant := by
  refine hr.invariant (invariant_initial hs) fun σ₁ σ₂ c h₁ hc hstep => ?_
  obtain ⟨σ', hσ', hinv⟩ := step_invariant h₁ hc
  rw [hσ'] at hstep
  exact Option.some.inj hstep ▸ hinv

/-- From blocks of one free chunk each, any sequence of `allocate`, and of `free`
on live pointers, keeps the heap well formed and the allocations apart; and every
such call comes back. -/
theorem allocate_free_sound {s : Arena} {cs : List Call} (hs : s.Initial)
    (hr : Execution step AllocateFree ⟨s, []⟩ cs σ) :
    σ.Sound ∧ ∀ c, σ.AllocateFree c → ∃ σ', σ.step c = some σ' := by
  have hinv := run_invariant hs hr
  refine ⟨hinv.sound, fun c hc => ?_⟩
  obtain ⟨σ', hσ', _⟩ := step_invariant hinv hc
  exact ⟨σ', hσ'⟩

/-- A block that is one free chunk. -/
def oneFree : List Block := [⟨4096, 1000, [⟨4120, 976, true, false, true⟩]⟩]

theorem oneFree_layout : Layout oneFree := by decide

theorem oneFree_initial : ∃ s h, Arena.Initial s ∧ h.blocks = oneFree ∧ h.Valid ∧ s.Stores h := by
  obtain ⟨s, h, hb, hv, hsort, hs⟩ := oneFree_layout.realised
  refine ⟨s, h, ⟨h, hv, hsort, hs, ?_⟩, hb, hv, hs⟩
  rw [hb]
  simp [oneFree]

theorem allocate_free_sound_once :
    ∃ (s : Arena) (σ : Session), Execution step AllocateFree ⟨s, []⟩ [.allocate 100] σ ∧ σ.Sound := by
  obtain ⟨s, _, hinit, _⟩ := oneFree_initial
  have h100 : AllocateFree ⟨s, []⟩ (.allocate 100) := show 100 < 2 ^ 64 by decide
  obtain ⟨σ, hσ, _⟩ := step_invariant (invariant_initial hinit) h100
  have hr : Execution step AllocateFree ⟨s, []⟩ [.allocate 100] σ := .snoc .nil h100 hσ
  exact ⟨s, σ, hr, (allocate_free_sound hinit hr).1⟩

end Session

end XviOs.Allocator
