import XviOs.Allocator.AddBlock
import XviOs.Allocator.ResizeSpec
import XviOs.Allocator.Session

namespace XviOs.Allocator

open Library.Runs Chunk Tile SizeClass

variable {gap : Nat → UInt64} {off : UInt64 × UInt64} {s : Arena} {σ σ' : Session} {h : Heap} {t : Tile}
  {es : List (Nat × Nat)} {ts : List Tile} {m : Mem} {cs : List Call} {n ptr block blockSize : Nat}

/-- The statistics say how many chunks there are, and how big those in use are. -/
structure Arena.Accounted (s : Arena) (h : Heap) : Prop where
  chunksFree : s.accounting.chunksFree.toNat = (freeChunks h.tiles).length
  chunksAllocated : s.accounting.chunksAllocated.toNat = (liveUsage h.tiles).1
  allocatedSize : s.accounting.allocatedSize.toNat = (liveUsage h.tiles).2
  chunkCount : ∀ i < binCount, (s.binAccounting i).chunkCount.toNat = (h.bins i).length

def Arena.AccountingRight (s : Arena) : Prop := ∃ h : Heap, h.Valid ∧ s.Stores h ∧ s.Accounted h

namespace Session

/-- The calls of a client that passes pointers only to what it holds, and adds
memory blocks that are its own to give. -/
def ClientCall (σ : Session) : Call → Prop
  | .addMemoryBlock block blockSize => σ.arena.Addable block blockSize
  | .allocate n => n < 2 ^ 64
  | .free ptr => ptr = 0 ∨ ∃ x ∈ σ.live, x.ptr = ptr
  | .resize ptr n => n < 2 ^ 64 ∧ (ptr = 0 ∨ ∃ x ∈ σ.live, x.ptr = ptr)

/-- The calls of a client that, besides, adds only blocks in which the place of
the first `PredFree` flag is clear, and avoids the requests to `resize` that
break the heap. -/
def CarefulCall (σ : Session) (c : Call) : Prop :=
  ClientCall σ c ∧
    match c with
    | .addMemoryBlock block _ => isPredecessorFree σ.arena.mem (block + sizeofBlockHeader) = false
    | .resize ptr n => ptr = 0 ∨ σ.arena.resizeBreaks ptr n = false
    | _ => True

end Session

def Call.adds : Call → Bool
  | .addMemoryBlock _ _ => true
  | _ => false

def Call.resizes : Call → Bool
  | .resize _ _ => true
  | _ => false

section Bounds

/-- Spans that lie apart do not take up more room than there is. -/
theorem sum_sizes_lt {l : List (Nat × Nat)} {bound : Nat}
    (hp : l.Pairwise (fun x y => x.1 + x.2 ≤ y.1 ∨ y.1 + y.2 ≤ x.1))
    (hb : ∀ x ∈ l, 0 < x.1 ∧ x.1 + x.2 ≤ bound) (hpos : 0 < bound) : (l.map Prod.snd).sum < bound := by
  obtain ⟨addrs, haddrs⟩ : ∃ addrs, addrs = l.flatMap (fun x => List.range' x.1 x.2) := ⟨_, rfl⟩
  have hlen : addrs.length = (l.map Prod.snd).sum := by
    rw [haddrs, List.length_flatMap]
    simp
  have hnodup : addrs.Nodup := by
    rw [haddrs, List.nodup_flatMap]
    refine ⟨fun x _ => List.nodup_range', hp.imp fun {x y} hxy a hx hy => ?_⟩
    rw [List.mem_range'_1] at hx hy
    omega
  have hsub : addrs.toFinset ⊆ Finset.Ico 1 bound := by
    intro a ha
    rw [List.mem_toFinset, haddrs, List.mem_flatMap] at ha
    obtain ⟨x, hx, ha⟩ := ha
    rw [List.mem_range'_1] at ha
    have := hb x hx
    exact Finset.mem_Ico.mpr ⟨by omega, by omega⟩
  have hcard := Finset.card_le_card hsub
  rw [List.toFinset_card_of_nodup hnodup, Nat.card_Ico, hlen] at hcard
  omega

/-- The numbers of chunks fit the counters. -/
theorem liveUsage_lt (hp : Placed es ts) : (liveUsage ts).1 < 2 ^ 64 ∧ (liveUsage ts).2 < 2 ^ 64 := by
  have hmem : ∀ x ∈ liveChunks ts, 0 < x.1 ∧ x.1 + x.2 ≤ 2 ^ 64 ∧ 32 ≤ x.2 := by
    intro x hx
    obtain ⟨t, ht, _, rfl⟩ := mem_liveChunks.mp hx
    exact ⟨(hp.sound t ht).pos, hp.bound t ht, (hp.sound t ht).size_ge⟩
  have hpair : (liveChunks ts).Pairwise (fun x y => x.1 + x.2 ≤ y.1 ∨ y.1 + y.2 ≤ x.1) := by
    rw [liveChunks, List.pairwise_map]
    exact hp.apart.filter _
  have hsum := sum_sizes_lt hpair (fun x hx => ⟨(hmem x hx).1, (hmem x hx).2.1⟩) (Nat.two_pow_pos 64)
  have hlen : (liveChunks ts).length ≤ ((liveChunks ts).map Prod.snd).sum := by
    have := List.length_le_sum_of_one_le ((liveChunks ts).map Prod.snd) (fun i hi => by
      obtain ⟨x, hx, rfl⟩ := List.mem_map.mp hi
      have := (hmem x hx).2.2
      omega)
    rwa [List.length_map] at this
  exact ⟨by simp only [liveUsage]; omega, hsum⟩

end Bounds

namespace Session

section Steps

theorem step_addMemoryBlock (hk : Keeps gap off σ h) (ha : σ.arena.Addable block blockSize)
    (hp : isPredecessorFree σ.arena.mem (block + sizeofBlockHeader) = false) :
    ∃ σ' h', σ.step (.addMemoryBlock block blockSize) = some σ' ∧ Keeps gap off σ' h' := by
  obtain ⟨hs, hq, ht, hu⟩ := hk
  obtain ⟨s', hadd, himage, hu', _⟩ := addMemoryBlock_spec hs ha
  have hlayout := addable_layout hs ha
  have hclear : (newChunk σ.arena block blockSize).predFree = false := hp
  have hnew : { newChunk σ.arena block blockSize with predFree := false } = newChunk σ.arena block blockSize := by
    rw [← hclear]
  rw [hnew] at hlayout
  refine ⟨⟨s', σ.live⟩, ⟨⟨block, blockSize, [newChunk σ.arena block blockSize]⟩ :: h.blocks, _⟩,
    by simp [step, hadd], ⟨hlayout, himage⟩, quiet_cons.mpr ⟨fun _ => hclear, hq⟩, ?_, ?_⟩
  · exact ⟨ht.chunks.trans (List.Perm.of_eq (liveChunks_cons_free rfl h.tiles).symm), ht.ptr_ge⟩
  · have hsame : liveUsage (newChunk σ.arena block blockSize :: h.tiles) = liveUsage h.tiles := by
      rw [liveUsage, liveChunks_cons_free rfl h.tiles]
      rfl
    show s'.usage = (UInt64.ofNat (liveUsage (newChunk σ.arena block blockSize :: h.tiles)).1 + off.1,
      UInt64.ofNat (liveUsage (newChunk σ.arena block blockSize :: h.tiles)).2 + off.2)
    rw [hu', hu, hsame]

/-- A null pointer is nobody's allocation. -/
theorem release_null (ht : Tracks σ.live h) : release σ.live 0 = σ.live := by
  refine List.eraseP_of_forall_not fun x hx => ?_
  have := ht.ptr_ge x hx
  simp only [decide_eq_true_eq]
  omega

theorem step_free_null (ht : Tracks σ.live h) : σ.step (.free 0) = some σ := by
  simp [step, Arena.free, release_null ht]

theorem step_resize_null (ht : Tracks σ.live h) (n : Nat) :
    ∃ s', σ.step (.resize 0 n) = some ⟨s', σ.live⟩ ∧ (s' = σ.arena ∨ s' = σ.arena.recordResizeAttempt) := by
  by_cases hn : n = 0
  · exact ⟨σ.arena, by simp [step, Arena.resize, Arena.free, hn, release_null ht], .inl rfl⟩
  · refine ⟨σ.arena.recordResizeAttempt, ?_, .inr rfl⟩
    have hsame : σ.live.map (fun x => if x.ptr = 0 then { x with size := 0 } else x) = σ.live := by
      refine (List.map_congr_left fun x hx => ?_).trans (List.map_id _)
      have := ht.ptr_ge x hx
      rw [if_neg (by omega)]
      rfl
    simp [step, Arena.resize, hn, hsame]

theorem step_resize_zero (σ : Session) (ptr : Nat) : σ.step (.resize ptr 0) = σ.step (.free ptr) := by
  simp only [step, Arena.resize, if_true, Option.bind_eq_bind, Option.pure_def]
  cases σ.arena.free ptr <;> rfl

theorem step_resize (hk : Keeps gap off σ h) (hp : ∃ x ∈ σ.live, x.ptr = ptr) (hn : n < 2 ^ 64)
    (hb : σ.arena.resizeBreaks ptr n = false) :
    ∃ σ' h' b, σ.step (.resize ptr n) = some σ' ∧ Keeps gap (off.1, b) σ' h' := by
  by_cases hn0 : n = 0
  · subst hn0
    rw [step_resize_zero]
    obtain ⟨σ', h', hs, hk', _⟩ := step_free hk hp
    exact ⟨σ', h', off.2, hs, hk'⟩
  obtain ⟨y, l₁, l₂, t, k, post, hsplit, _, hchunk, ⟨hyp, hptr, htf, _⟩, _, hw, hperm, hothers⟩ := hk.exists_worked hp
  rw [← hptr] at hb
  obtain ⟨r, s', c, post', bins', hres, hw', hq', ⟨hca, hcf, hcs⟩, hlive, _, hu⟩ :=
    resize_keeps hw htf (hk.quiet.perm hperm) hn0 hn hb
  rw [hptr] at hres
  -- the other allocations are elsewhere
  have helse : ∀ z ∈ l₁ ++ l₂, z.ptr ≠ ptr := by
    intro z hz he
    obtain ⟨u, hu, _, hue⟩ := mem_liveChunks.mp (hothers.mem_iff.mp (List.mem_map_of_mem hz))
    have hua : u.addr = z.ptr - 8 := congrArg Prod.fst hue
    exact hw.addr_ne hu (by omega)
  have hmap : σ.live.map (fun x => if x.ptr = ptr then { x with size := r } else x) =
      l₁ ++ { y with size := r } :: l₂ := by
    have hid (l : List Allocation) (hl : ∀ z ∈ l, z ∈ l₁ ++ l₂) :
        l.map (fun x => if x.ptr = ptr then { x with size := r } else x) = l := by
      refine (List.map_congr_left fun z hz => ?_).trans (List.map_id _)
      rw [if_neg (helse z (hl z hz))]
      rfl
    rw [hsplit, List.map_append, List.map_cons, hid l₁ (fun z hz => by simp [hz]), hid l₂ (fun z hz => by simp [hz]),
      if_pos hyp]
  have hliveChunks : (liveChunks (Heap.tiles ⟨k.blocks (c :: post'), bins'⟩)).Perm
      ((c.addr, c.size) :: liveChunks (post ++ k.rest)) := by
    refine (liveChunks_perm hw'.tiles_perm).trans ?_
    rw [List.cons_append, liveChunks_cons_live hcf, liveChunks_append, liveChunks_append, hlive]
  have hold : (liveChunks h.tiles).Perm ((t.addr, t.size) :: liveChunks (post ++ k.rest)) := by
    refine (liveChunks_perm hperm).trans ?_
    rw [List.cons_append, liveChunks_cons_live htf]
  refine ⟨⟨s', l₁ ++ { y with size := r } :: l₂⟩, ⟨k.blocks (c :: post'), bins'⟩,
    s'.usage.2 - UInt64.ofNat (liveUsage (Heap.tiles ⟨k.blocks (c :: post'), bins'⟩)).2, ?_,
    hw'.holds, hq'.perm hw'.tiles_perm.symm, ⟨?_, ?_⟩, ?_⟩
  · simp [step, hres, hn0, hmap]
  · have hy : Allocation.chunk { y with size := r } = (c.addr, c.size) := by
      have hya : y.ptr - 8 = t.addr := congrArg Prod.fst hchunk
      exact Prod.ext (hya.trans hca.symm) hcs.symm
    refine List.Perm.trans ?_ hliveChunks.symm
    rw [List.map_append, List.map_cons, hy]
    refine List.perm_middle.trans ?_
    rw [← List.map_append]
    exact hothers.cons _
  · intro z hz
    rcases List.mem_append.mp hz with hz | hz
    · exact hk.tracks.ptr_ge z (by simp [hsplit, hz])
    rcases List.mem_cons.mp hz with rfl | hz
    · exact hk.tracks.ptr_ge y (by simp [hsplit])
    · exact hk.tracks.ptr_ge z (by simp [hsplit, hz])
  · have hlen : (liveUsage (Heap.tiles ⟨k.blocks (c :: post'), bins'⟩)).1 = (liveUsage h.tiles).1 := by
      simp only [liveUsage, hliveChunks.length_eq, hold.length_eq, List.length_cons]
    have husage := hk.usage
    rw [← hu] at husage
    have hfst : s'.usage.1 = UInt64.ofNat (liveUsage h.tiles).1 + off.1 := congrArg Prod.fst husage
    refine Prod.ext ?_ ?_
    · rw [hlen]
      exact hfst
    · dsimp only
      grind

end Steps

section Runs

theorem Keeps.congr {s' : Arena} (hk : Keeps gap off σ h)
    (hs : s' = σ.arena ∨ s' = σ.arena.recordResizeAttempt) : Keeps gap off ⟨s', σ.live⟩ h := by
  rcases hs with rfl | rfl
  · exact hk
  · exact ⟨hk.holds.congr rfl rfl rfl (fun _ => rfl), hk.quiet, hk.tracks, hk.usage⟩

theorem keeps_empty (m : Mem) : Keeps (fun _ => 0) (0, 0) ⟨.empty m, []⟩ ⟨[], fun _ => []⟩ := by
  have hlayout : Layout [] := by decide
  have himage : Image (fun _ => 0) (Arena.empty m) [] [] [] (fun _ => []) :=
    ⟨hlayout.placed_tiles, by simp, by simp, ⟨by simp [freeChunks], by simp⟩, fun _ _ => rfl, rfl, fun _ _ => rfl⟩
  exact ⟨⟨hlayout, himage⟩, fun t ht => absurd ht (by simp [Heap.tiles]), ⟨List.Perm.refl _, by simp⟩, rfl⟩

theorem step_careful {c : Call} {b : UInt64} (hk : Keeps gap (off.1, b) σ h) (hc : CarefulCall σ c) :
    ∃ σ' h' b', σ.step c = some σ' ∧ Keeps gap (off.1, b') σ' h' ∧ (c.resizes = false → b' = b) := by
  obtain ⟨hclient, hcare⟩ := hc
  cases c with
  | addMemoryBlock block blockSize =>
      obtain ⟨σ', h', hs, hk'⟩ := step_addMemoryBlock hk hclient hcare
      exact ⟨σ', h', b, hs, hk', fun _ => rfl⟩
  | allocate n =>
      obtain ⟨σ', h', hs, hk', _⟩ := step_allocate hk hclient
      exact ⟨σ', h', b, hs, hk', fun _ => rfl⟩
  | free ptr =>
      rcases hclient with rfl | hlive
      · exact ⟨σ, h, b, step_free_null hk.tracks, hk, fun _ => rfl⟩
      · obtain ⟨σ', h', hs, hk', _⟩ := step_free hk hlive
        exact ⟨σ', h', b, hs, hk', fun _ => rfl⟩
  | resize ptr n =>
      obtain ⟨hn, hptr⟩ := hclient
      by_cases hnull : ptr = 0
      · subst hnull
        obtain ⟨s', hs, hs'⟩ := step_resize_null hk.tracks n
        exact ⟨_, h, b, hs, hk.congr hs', fun _ => rfl⟩
      · obtain ⟨σ', h', b', hs, hk'⟩ := step_resize hk (hptr.resolve_left hnull) hn (hcare.resolve_left hnull)
        exact ⟨σ', h', b', hs, hk', fun hno => absurd hno (by simp [Call.resizes])⟩

theorem careful_run (hr : Execution step CarefulCall ⟨.empty m, []⟩ cs σ) :
    ∃ h b, Keeps (fun _ => 0) (0, b) σ h ∧ ((∀ c ∈ cs, c.resizes = false) → b = 0) := by
  induction hr with
  | nil => exact ⟨_, 0, keeps_empty m, fun _ => rfl⟩
  | @snoc cs σ₁ σ₂ c _ hc hstep ih =>
      obtain ⟨h, b, hk, hb⟩ := ih
      obtain ⟨σ', h', b', hs, hk', hb'⟩ := @step_careful _ (0, 0) _ _ _ _ hk hc
      rw [hs] at hstep
      obtain rfl := Option.some.inj hstep
      refine ⟨h', b', hk', fun hno => ?_⟩
      rw [hb' (hno c (by simp)), hb (fun d hd => hno d (by simp [hd]))]

theorem toNat_counter {k : Nat} (h : k < 2 ^ 64) : (UInt64.ofNat k + 0).toNat = k := by
  rw [UInt64.add_zero]
  exact UInt64.toNat_ofNat_of_lt h

/-- What the statistics get right, as long as the heap stays well formed. -/
theorem Keeps.counts {b : UInt64} (hk : Keeps (fun _ => 0) (0, b) σ h) :
    σ.arena.accounting.chunksAllocated.toNat = (liveUsage h.tiles).1 ∧
      (∀ i < binCount, (σ.arena.binAccounting i).chunkCount.toNat = (h.bins i).length) ∧
      (b = 0 → σ.arena.accounting.allocatedSize.toNat = (liveUsage h.tiles).2) := by
  obtain ⟨hlen, hsum⟩ := liveUsage_lt hk.holds.layout.placed_tiles
  have h1 : σ.arena.accounting.chunksAllocated = UInt64.ofNat (liveUsage h.tiles).1 + 0 := congrArg Prod.fst hk.usage
  have h2 : σ.arena.accounting.allocatedSize = UInt64.ofNat (liveUsage h.tiles).2 + b := congrArg Prod.snd hk.usage
  refine ⟨?_, fun i hi => ?_, fun hb => ?_⟩
  · rw [h1]
    exact toNat_counter hlen
  · rw [hk.holds.image.counts i hi]
    exact toNat_counter (hk.holds.image.bin_length i)
  · rw [h2, hb]
    exact toNat_counter hsum

/-- A session in which no memory was ever added. -/
structure Bare (σ : Session) : Prop where
  keeps : Keeps (fun _ => 0) (0, 0) σ ⟨[], fun _ => []⟩
  live : σ.live = []
  chunksFree : σ.arena.accounting.chunksFree = 0

theorem step_bare {c : Call} (hb : Bare σ) (hc : ClientCall σ c) (hno : c.adds = false)
    (hs : σ.step c = some σ') : Bare σ' := by
  obtain ⟨hk, hlive, hfree⟩ := hb
  cases c with
  | addMemoryBlock block blockSize => exact absurd hno (by simp [Call.adds])
  | allocate n =>
      have hnone : Heap.search ⟨[], fun _ => []⟩ n = none := by
        rw [← Option.not_isSome_iff_eq_none, Option.isSome_iff_exists]
        rintro ⟨x, hx⟩
        rw [Heap.search] at hx
        obtain ⟨_, j, _, _, hfind, _⟩ := firstFit_some hx
        simp at hfind
      obtain ⟨s', ha, hh, hu, hf⟩ := allocate_fail hk.holds (.inr (.inr hnone))
      obtain rfl : (⟨s', σ.live⟩ : Session) = σ' := by simpa [step, ha] using hs
      exact ⟨⟨hh, hk.quiet, hk.tracks, hu.trans hk.usage⟩, hlive, hf.trans hfree⟩
  | free ptr =>
      obtain rfl : ptr = 0 := by simpa [ClientCall, hlive] using hc
      rw [step_free_null hk.tracks] at hs
      obtain rfl := Option.some.inj hs
      exact ⟨hk, hlive, hfree⟩
  | resize ptr n =>
      obtain ⟨_, hc⟩ := hc
      obtain rfl : ptr = 0 := by simpa [hlive] using hc
      obtain ⟨s', hs', hsame⟩ := step_resize_null hk.tracks n
      rw [hs'] at hs
      obtain rfl := Option.some.inj hs
      refine ⟨hk.congr hsame, hlive, ?_⟩
      rcases hsame with rfl | rfl <;> exact hfree

theorem bare_run (hr : Execution step ClientCall ⟨.empty m, []⟩ cs σ) (hno : ∀ c ∈ cs, c.adds = false) : Bare σ := by
  induction hr with
  | nil => exact ⟨keeps_empty m, rfl, rfl⟩
  | @snoc cs σ₁ σ₂ c _ hc hstep ih =>
      exact step_bare (ih fun d hd => hno d (by simp [hd])) hc (hno c (by simp)) hstep

theorem Bare.accountingRight (hb : Bare σ) : σ.arena.AccountingRight := by
  obtain ⟨h1, h2, h3⟩ := hb.keeps.counts
  refine ⟨_, hb.keeps.holds.valid, hb.keeps.holds.stores, ?_, h1, h3 rfl, h2⟩
  rw [hb.chunksFree]
  rfl

/-- The first block is one free chunk, and the statistics do not count it. -/
theorem added_not_right {c : Call} (hb : Bare σ) (hc : ClientCall σ c) (hadds : c.adds = true)
    (hs : σ.step c = some σ') : ¬ σ'.arena.AccountingRight := by
  cases c with
  | allocate n => exact absurd hadds (by simp [Call.adds])
  | free ptr => exact absurd hadds (by simp [Call.adds])
  | resize ptr n => exact absurd hadds (by simp [Call.adds])
  | addMemoryBlock block blockSize =>
      obtain ⟨s', hadd, himage, _, hfree⟩ := addMemoryBlock_spec hb.keeps.holds hc
      obtain rfl : (⟨s', σ.live⟩ : Session) = σ' := by simpa [step, hadd] using hs
      rintro ⟨h', hv', hst', hacc⟩
      -- whatever heap the arena holds, it is that one chunk
      have hext : h'.extents = [(block, blockSize)] := hst'.chain.unique himage.chain
      obtain ⟨b, hbs⟩ : ∃ b, h'.blocks = [b] := List.length_eq_one_iff.mp (by
        have := congrArg List.length hext
        simpa [Heap.extents] using this)
      have hbase : b.base = block := by
        rw [Heap.extents, hbs] at hext
        exact congrArg Prod.fst (List.cons.inj hext).1
      have htiled := hv'.layout.tiled b (by rw [hbs]; simp)
      have htiles : h'.tiles = b.tiles := by rw [Heap.tiles, hbs]; simp
      obtain ⟨u, us, hus⟩ := List.exists_cons_of_ne_nil htiled.nonempty
      have habut := htiled.abut
      have hlast := htiled.last
      rw [hus] at habut hlast
      have hua : u.addr = block + 24 := by rw [habut.1, Block.start, hbase]
      have hu : u = newChunk σ.arena block blockSize :=
        (hst'.headers u (by rw [htiles, hus]; simp)).ext (himage.headers (newChunk σ.arena block blockSize) (by simp)) hua
      obtain rfl : us = [] := by
        have : u.last = us.isEmpty := hlast.1
        rw [hu] at this
        exact List.isEmpty_iff.mp this.symm
      have hcount := hacc.chunksFree
      rw [htiles, hus, hu, freeChunks_cons_free rfl, hfree, hb.chunksFree] at hcount
      exact absurd hcount (by simp)

/-- The statistics of an arena are right after every step exactly if no memory is
ever added: the number of free chunks is never counted up. The number of the
chunks in use and those of the chunks in the bins are right as long as the heap
is well formed, and so is the size of the chunks in use until there is a call of
`resize`. -/
theorem accounting_runs (m : Mem) :
    (∀ cs σ, Execution step ClientCall ⟨.empty m, []⟩ cs σ →
      ((∀ pre τ, pre <+: cs → Execution step ClientCall ⟨.empty m, []⟩ pre τ → τ.arena.AccountingRight) ↔
        ∀ c ∈ cs, c.adds = false)) ∧
    (∀ cs σ, Execution step CarefulCall ⟨.empty m, []⟩ cs σ →
      ∃ h : Heap, h.Valid ∧ σ.arena.Stores h ∧
        σ.arena.accounting.chunksAllocated.toNat = (liveUsage h.tiles).1 ∧
        (∀ i < binCount, (σ.arena.binAccounting i).chunkCount.toNat = (h.bins i).length) ∧
        ((∀ c ∈ cs, c.resizes = false) → σ.arena.accounting.allocatedSize.toNat = (liveUsage h.tiles).2)) := by
  refine ⟨fun cs σ hr => ⟨fun hright => ?_, fun hno pre τ hpre hτ => ?_⟩, fun cs σ hr => ?_⟩
  · by_contra hadds
    simp only [not_forall, Bool.not_eq_false] at hadds
    obtain ⟨d, hd, hda⟩ := hadds
    obtain ⟨c, pre, post, hpre, hc, hsplit, _⟩ := List.exists_of_eraseP hd hda
    rw [hsplit] at hr
    obtain ⟨τ, hτ, hrest⟩ := hr.split
    obtain ⟨τ', hτ', _⟩ := Execution.split (show Execution step ClientCall τ ([c] ++ post) σ from hrest)
    obtain ⟨hallowed, hstep⟩ := hτ'.single
    have hbare := bare_run hτ (fun e he => by simpa using hpre e he)
    refine added_not_right hbare hallowed hc hstep (hright (pre ++ [c]) τ' ?_ (.snoc hτ hallowed hstep))
    exact ⟨post, by rw [hsplit, List.append_assoc]; rfl⟩
  · exact (bare_run hτ fun c hc => hno c (hpre.subset hc)).accountingRight
  · obtain ⟨h, b, hk, hb⟩ := careful_run hr
    obtain ⟨h1, h2, h3⟩ := hk.counts
    exact ⟨h, hk.holds.valid, hk.holds.stores, h1, h2, fun hno => h3 (hb hno)⟩

/-- A block that a new arena over clear memory takes. -/
theorem addable_first : Arena.Addable (.empty fun _ => 0) 4096 4096 := by
  refine ⟨by decide, by decide, by decide, by decide, by decide, fun es hes e he => ?_⟩
  obtain rfl : [] = es := BlocksAt.unique (rfl : BlocksAt (fun _ => 0) 0 []) hes
  simp at he

theorem exists_first_run : ∃ σ : Session,
    Execution step ClientCall ⟨.empty fun _ => 0, []⟩ [.addMemoryBlock 4096 4096] σ := by
  obtain ⟨s', hadd, _⟩ := addMemoryBlock_spec (keeps_empty fun _ => 0).holds addable_first
  exact ⟨⟨s', []⟩, .snoc .nil addable_first (by simp [step, hadd])⟩

theorem accounting_runs_first : ∃ σ : Session,
    Execution step ClientCall ⟨.empty fun _ => 0, []⟩ [.addMemoryBlock 4096 4096] σ ∧
      ¬ ∀ pre τ, pre <+: [.addMemoryBlock 4096 4096] →
        Execution step ClientCall ⟨.empty fun _ => 0, []⟩ pre τ → τ.arena.AccountingRight := by
  obtain ⟨σ, hr⟩ := exists_first_run
  refine ⟨σ, hr, fun hright => ?_⟩
  have := ((accounting_runs fun _ => 0).1 _ σ hr).mp hright (.addMemoryBlock 4096 4096) (by simp)
  exact absurd this (by decide)

/-- After the first memory block there is a free chunk, and `chunks_free` is 0. -/
theorem accounting_wrong :
    ¬ ∀ (m : Mem) (cs : List Call) (σ : Session), Execution step ClientCall ⟨.empty m, []⟩ cs σ →
      σ.arena.AccountingRight := by
  intro hall
  obtain ⟨σ, hr⟩ := exists_first_run
  obtain ⟨hc, hstep⟩ := hr.single
  exact added_not_right (bare_run .nil (by simp)) hc rfl hstep (hall _ _ _ hr)

end Runs

end Session

end XviOs.Allocator
