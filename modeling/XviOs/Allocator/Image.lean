import XviOs.Allocator.Arena
import XviOs.Allocator.BinList
import XviOs.Allocator.ChunkSpec
import XviOs.Allocator.Layout

namespace XviOs.Allocator

open Library.LittleEndian Chunk Tile SizeClass BinList

/-- The chain of block headers from `first` on: each holds the size of its block
and a pointer to the next one of the chain. -/
def BlocksAt (m : Mem) : Nat → List (Nat × Nat) → Prop
  | first, [] => first = 0
  | first, e :: es => first = e.1 ∧ first ≠ 0 ∧ read64 m e.1 = e.2 ∧ BlocksAt m (read64 m (e.1 + 16)) es

/-- The bins without the chunk `x`. -/
def unbin (bins : Nat → List (Nat × Nat)) (x : Nat × Nat) : Nat → List (Nat × Nat) :=
  Function.update bins (sizeToBinIndex x.2) ((bins (sizeToBinIndex x.2)).erase x)

/-- The bins with the chunk `x`, before the chunks that are as big. -/
def rebin (bins : Nat → List (Nat × Nat)) (x : Nat × Nat) : Nat → List (Nat × Nat) :=
  Function.update bins (sizeToBinIndex x.2)
    ((bins (sizeToBinIndex x.2)).orderedInsert (fun y z => y.2 ≤ z.2) x)

/-- The contents of the chunks `cs` (address and size), less their headers, are the same. -/
def KeepsChunks (cs : List (Nat × Nat)) (m m' : Mem) : Prop := ∀ c ∈ cs, EqOn m m' (c.1 + 8) (c.1 + c.2)

/-- The arena holds the chunks `mid ++ outer` in blocks `es`. Those of `mid` are
being worked on: they are in no bin, and their footers are not written. The
chunk counts of the bins are off by `gap`. -/
structure Image (gap : Nat → UInt64) (s : Arena) (es : List (Nat × Nat)) (mid outer : List Tile)
    (bins : Nat → List (Nat × Nat)) : Prop where
  placed : Placed es (mid ++ outer)
  headers : ∀ t ∈ mid ++ outer, t.In s.mem
  footers : ∀ t ∈ outer, t.free = true → t.Footed s.mem
  binned : Binned bins (freeChunks outer)
  lists : ∀ i < binCount, ListAt s.mem (s.bins i) ((bins i).map Prod.fst)
  chain : BlocksAt s.mem s.blocks es
  counts : ∀ i < binCount, (s.binAccounting i).chunkCount = UInt64.ofNat (bins i).length + gap i

variable {gap : Nat → UInt64} {s : Arena} {es : List (Nat × Nat)} {mid mid' outer outer' post rest old new : List Tile}
  {bins : Nat → List (Nat × Nat)} {t u d : Tile} {m m' : Mem} {l : List Nat} {lo hi x y i first : Nat}
  {c : Nat × Nat}

theorem BlocksAt.congr (h : BlocksAt m first es) (he : ∀ e ∈ es, EqOn m m' e.1 (e.1 + 24)) :
    BlocksAt m' first es := by
  induction es generalizing first with
  | nil => exact h
  | cons e es ih =>
      obtain ⟨rfl, hne, hs, ht⟩ := h
      have heq := he e (by simp)
      refine ⟨rfl, hne, (read64_congr (heq.mono (by omega) (by omega))).trans hs, ?_⟩
      rw [read64_congr (heq.mono (by omega) (by omega))]
      exact ih ht (fun e' he' => he e' (by simp [he']))

/-- The memory determines the chain of blocks. -/
theorem BlocksAt.unique {es' : List (Nat × Nat)} (h : BlocksAt m first es) (h' : BlocksAt m first es') :
    es = es' := by
  induction es generalizing first es' with
  | nil =>
      cases es' with
      | nil => rfl
      | cons e es' => exact absurd h h'.2.1
  | cons e es ih =>
      cases es' with
      | nil => exact absurd h' h.2.1
      | cons e' es' =>
          obtain ⟨h1, _, h2, ht⟩ := h
          obtain ⟨h1', _, h2', ht'⟩ := h'
          obtain rfl : e = e' := Prod.ext (h1.symm.trans h1') (by rw [← h2, ← h2', ← h1, ← h1'])
          rw [ih ht ht']

namespace KeepsChunks

variable {m'' : Mem} {cs cs' : List (Nat × Nat)}

theorem refl (cs : List (Nat × Nat)) (m : Mem) : KeepsChunks cs m m := fun c _ => EqOn.refl m (c.1 + 8) (c.1 + c.2)

theorem trans (h : KeepsChunks cs m m') (h' : KeepsChunks cs m' m'') : KeepsChunks cs m m'' :=
  fun c hc => (h c hc).trans (h' c hc)

theorem mono (h : KeepsChunks cs m m') (hs : ∀ c ∈ cs', c ∈ cs) : KeepsChunks cs' m m' := fun c hc => h c (hs c hc)

end KeepsChunks

section Bins

variable {l' : List (Nat × Nat)}

theorem Binned.unbin (h : Binned bins (c :: l')) (hc : c ∉ l') : Binned (unbin bins c) l' := by
  refine ⟨fun i x => ?_, fun i => ?_⟩
  · have hm := h.mem i x
    rw [List.mem_cons] at hm
    rw [Allocator.unbin]
    by_cases hi : i = sizeToBinIndex c.2
    · subst hi
      rw [Function.update_self, (h.nodup _).mem_erase_iff, hm]
      constructor
      · rintro ⟨hx, hi, hx' | hx'⟩
        · exact absurd hx' hx
        · exact ⟨hi, hx'⟩
      · rintro ⟨hi, hx⟩
        exact ⟨fun he => hc (he ▸ hx), hi, .inr hx⟩
    · rw [Function.update_of_ne hi, hm]
      constructor
      · rintro ⟨hi', rfl | hx⟩
        · exact absurd hi' hi
        · exact ⟨hi', hx⟩
      · rintro ⟨hi', hx⟩
        exact ⟨hi', .inr hx⟩
  · rw [Allocator.unbin]
    by_cases hi : i = sizeToBinIndex c.2
    · subst hi
      rw [Function.update_self]
      exact (h.nodup _).erase _
    · rw [Function.update_of_ne hi]
      exact h.nodup i

theorem Binned.rebin (h : Binned bins l') (hc : c ∉ l') : Binned (rebin bins c) (c :: l') := by
  have hfresh : c ∉ bins (sizeToBinIndex c.2) := fun hm => hc ((h.mem _ _).mp hm).2
  refine ⟨fun i x => ?_, fun i => ?_⟩
  · have hm := h.mem i x
    rw [Allocator.rebin, List.mem_cons]
    by_cases hi : i = sizeToBinIndex c.2
    · subst hi
      rw [Function.update_self, List.mem_orderedInsert, hm]
      constructor
      · rintro (rfl | ⟨hi, hx⟩)
        · exact ⟨rfl, .inl rfl⟩
        · exact ⟨hi, .inr hx⟩
      · rintro ⟨hi, rfl | hx⟩
        · exact .inl rfl
        · exact .inr ⟨hi, hx⟩
    · rw [Function.update_of_ne hi, hm]
      constructor
      · rintro ⟨hi', hx⟩
        exact ⟨hi', .inr hx⟩
      · rintro ⟨hi', rfl | hx⟩
        · exact absurd hi' hi
        · exact ⟨hi', hx⟩
  · rw [Allocator.rebin]
    by_cases hi : i = sizeToBinIndex c.2
    · subst hi
      rw [Function.update_self]
      exact (List.perm_orderedInsert _ c _).nodup_iff.mpr (List.nodup_cons.mpr ⟨hfresh, h.nodup _⟩)
    · rw [Function.update_of_ne hi]
      exact h.nodup i

theorem SortedBins.unbin (h : SortedBins bins) (c : Nat × Nat) : SortedBins (unbin bins c) := by
  intro i
  rw [Allocator.unbin]
  by_cases hi : i = sizeToBinIndex c.2
  · subst hi
    rw [Function.update_self]
    exact (h _).sublist List.erase_sublist
  · rw [Function.update_of_ne hi]
    exact h i

theorem SortedBins.rebin (h : SortedBins bins) (c : Nat × Nat) : SortedBins (rebin bins c) := by
  have : Std.Total (fun y z : Nat × Nat => y.2 ≤ z.2) := ⟨fun y z => Nat.le_total y.2 z.2⟩
  have : IsTrans (Nat × Nat) (fun y z => y.2 ≤ z.2) := ⟨fun _ _ _ => Nat.le_trans⟩
  intro i
  rw [Allocator.rebin]
  by_cases hi : i = sizeToBinIndex c.2
  · subst hi
    rw [Function.update_self]
    exact (h _).orderedInsert c _
  · rw [Function.update_of_ne hi]
    exact h i

end Bins

namespace Image

theorem perm (h : Image gap s es mid outer bins) (hm : mid.Perm mid') (ho : outer.Perm outer') :
    Image gap s es mid' outer' bins :=
  ⟨h.placed.perm (hm.append ho), fun t ht => h.headers t ((hm.append ho).mem_iff.mpr ht),
    fun t ht => h.footers t (ho.mem_iff.mpr ht),
    h.binned.congr fun _ => (freeChunks_perm ho).mem_iff, h.lists, h.chain, h.counts⟩

/-- A chunk that is not free has neither a footer nor a bin. -/
theorem settle (h : Image gap s es (t :: mid) outer bins) (ht : t.free = false) :
    Image gap s es mid (t :: outer) bins := by
  have hp : (t :: mid ++ outer).Perm (mid ++ t :: outer) := List.perm_middle.symm
  refine ⟨h.placed.perm hp, fun u hu => h.headers u (hp.mem_iff.mpr hu), fun u hu hf => ?_, ?_,
    h.lists, h.chain, h.counts⟩
  · rcases List.mem_cons.mp hu with rfl | hu
    · rw [ht] at hf
      exact absurd hf (by decide)
    · exact h.footers u hu hf
  · rw [freeChunks_cons_live ht]
    exact h.binned

theorem unsettle (h : Image gap s es mid (t :: outer) bins) (ht : t.free = false) :
    Image gap s es (t :: mid) outer bins := by
  have hp : (mid ++ t :: outer).Perm (t :: mid ++ outer) := List.perm_middle
  refine ⟨h.placed.perm hp, fun u hu => h.headers u (hp.mem_iff.mpr hu),
    fun u hu hf => h.footers u (by simp [hu]) hf, ?_, h.lists, h.chain, h.counts⟩
  have := h.binned
  rwa [freeChunks_cons_live ht] at this

section Bins

/-- Any two chunks are the same or lie apart. -/
theorem spread (h : Image gap s es mid outer bins) : Spread ((mid ++ outer).map Tile.addr) := by
  intro a ha b hb
  obtain ⟨t, ht, rfl⟩ := List.mem_map.mp ha
  obtain ⟨u, hu, rfl⟩ := List.mem_map.mp hb
  by_cases htu : t = u
  · exact .inl (by rw [htu])
  · have h1 := (h.placed.sound t ht).size_ge
    have h2 := (h.placed.sound u hu).size_ge
    have hap : t.stop ≤ u.addr ∨ u.stop ≤ t.addr := h.placed.apart.forall ht hu htu
    simp only [stop] at hap
    simp only [BinList.Apart]
    omega

theorem addr_inj (h : Image gap s es mid outer bins) (ht : t ∈ mid ++ outer) (hu : u ∈ mid ++ outer)
    (ha : t.addr = u.addr) : t = u := by
  by_contra htu
  have h1 := (h.placed.sound t ht).size_ge
  have h2 := (h.placed.sound u hu).size_ge
  have hap : t.stop ≤ u.addr ∨ u.stop ≤ t.addr := h.placed.apart.forall ht hu htu
  simp only [stop] at hap
  omega

theorem mem_bin (h : Image gap s es mid outer bins) (hc : c ∈ bins i) :
    ∃ t ∈ outer, t.free = true ∧ (t.addr, t.size) = c :=
  mem_freeChunks.mp ((h.binned.mem i c).mp hc).2

theorem bin_addrs (h : Image gap s es mid outer bins) (hx : x ∈ (bins i).map Prod.fst) :
    ∃ t ∈ outer, t.free = true ∧ t.addr = x ∧ (t.addr, t.size) ∈ bins i := by
  obtain ⟨c, hc, rfl⟩ := List.mem_map.mp hx
  obtain ⟨t, ht, hf, rfl⟩ := h.mem_bin hc
  exact ⟨t, ht, hf, rfl, hc⟩

theorem bin_nodup (h : Image gap s es mid outer bins) (i : Nat) : ((bins i).map Prod.fst).Nodup := by
  refine (h.binned.nodup i).map_on fun c hc c' hc' he => ?_
  obtain ⟨t, ht, _, rfl⟩ := h.mem_bin hc
  obtain ⟨u, hu, _, rfl⟩ := h.mem_bin hc'
  rw [h.addr_inj (by simp [ht]) (by simp [hu]) he]

theorem addr_lt (h : Image gap s es mid outer bins) (t : Tile) (ht : t ∈ mid ++ outer) : 0 < t.addr ∧ t.addr < 2 ^ 64 := by
  have h1 := (h.placed.sound t ht).pos
  have h2 := (h.placed.sound t ht).size_ge
  have h3 := h.placed.bound t ht
  simp only [stop] at h3
  omega

/-- The scans of the bin lists come to an end. -/
theorem bin_length (h : Image gap s es mid outer bins) (i : Nat) : (bins i).length < loopBound := by
  have hsub : ((bins i).map Prod.fst).toFinset ⊆ Finset.Ico 1 (2 ^ 64) := by
    intro x hx
    obtain ⟨t, ht, _, rfl, _⟩ := h.bin_addrs (List.mem_toFinset.mp hx)
    have := h.addr_lt t (by simp [ht])
    exact Finset.mem_Ico.mpr ⟨by omega, by omega⟩
  have hcard := Finset.card_le_card hsub
  rw [List.toFinset_card_of_nodup (h.bin_nodup i), Nat.card_Ico, List.length_map] at hcard
  have : loopBound = 2 ^ 64 := rfl
  omega

/-- Chunks in different bins are different. -/
theorem bins_disjoint {j : Nat} (h : Image gap s es mid outer bins) (hx : x ∈ (bins i).map Prod.fst)
    (hy : y ∈ (bins j).map Prod.fst) (hij : i ≠ j) : BinList.Apart x y := by
  obtain ⟨t, ht, _, rfl, htm⟩ := h.bin_addrs hx
  obtain ⟨u, hu, _, rfl, hum⟩ := h.bin_addrs hy
  have hne : t.addr ≠ u.addr := by
    intro he
    obtain rfl := h.addr_inj (by simp [ht]) (by simp [hu]) he
    exact hij (((h.binned.mem i _).mp htm).1.trans ((h.binned.mem j _).mp hum).1.symm)
  exact (h.spread _ (List.mem_map_of_mem (by simp [ht])) _ (List.mem_map_of_mem (by simp [hu]))).resolve_left hne

end Bins

section Links

/-- Headers lie beside the link fields of the chunks. -/
theorem links_header (h : Image gap s es mid outer bins) (hl : ∀ x ∈ l, x ∈ (mid ++ outer).map Tile.addr)
    (ho : OnlyLinks l s.mem m') (ht : t ∈ mid ++ outer) : t.In m' := by
  refine (h.headers t ht).congr (ho.eqOn fun x hx => ?_)
  rcases h.spread t.addr (List.mem_map_of_mem ht) x (hl x hx) with rfl | hap | hap <;> omega

theorem links_footer (h : Image gap s es mid outer bins) (hl : ∀ x ∈ l, x ∈ (mid ++ outer).map Tile.addr)
    (ho : OnlyLinks l s.mem m') (ht : t ∈ mid ++ outer) (hf : t.Footed s.mem) : t.Footed m' := by
  have hsize := (h.placed.sound t ht).size_ge
  have hstop : t.stop = t.addr + t.size := rfl
  refine hf.congr (ho.eqOn fun x hx => ?_)
  obtain ⟨u, hu, rfl⟩ := List.mem_map.mp (hl x hx)
  by_cases htu : t = u
  · subst htu
    omega
  · have h2 := (h.placed.sound u hu).size_ge
    have hap : t.stop ≤ u.addr ∨ u.stop ≤ t.addr := h.placed.apart.forall ht hu htu
    have hu' : u.stop = u.addr + u.size := rfl
    omega

theorem links_chain (h : Image gap s es mid outer bins) (hl : ∀ x ∈ l, x ∈ (mid ++ outer).map Tile.addr)
    (ho : OnlyLinks l s.mem m') : BlocksAt m' s.blocks es := by
  refine h.chain.congr fun e he => ho.eqOn fun x hx => ?_
  obtain ⟨u, hu, rfl⟩ := List.mem_map.mp (hl x hx)
  have h2 := (h.placed.sound u hu).size_ge
  have hap := h.placed.clear e he u hu
  have hu' : u.stop = u.addr + u.size := rfl
  omega

theorem links_list (h : Image gap s es mid outer bins) {j : Nat} (hj : j < binCount)
    (ho : OnlyLinks l s.mem m') (hl : ∀ x ∈ l, ∀ y ∈ (bins j).map Prod.fst, BinList.Apart y x) :
    ListAt m' (s.bins j) ((bins j).map Prod.fst) :=
  (h.lists j hj).congr fun y hy => ho.eqOn fun x hx => by
    rcases hl x hx y hy with hap | hap <;> omega

/-- The links of free chunks lie beside the chunks in use. -/
theorem links_keeps (h : Image gap s es mid outer bins)
    (hl : ∀ x ∈ l, ∃ t ∈ mid ++ outer, t.free = true ∧ t.addr = x) (ho : OnlyLinks l s.mem m') :
    KeepsChunks (liveChunks (mid ++ outer)) s.mem m' := by
  intro c hc
  obtain ⟨u, hu, huf, rfl⟩ := mem_liveChunks.mp hc
  refine ho.eqOn fun x hx => ?_
  obtain ⟨t, ht, htf, rfl⟩ := hl x hx
  have htu : t ≠ u := by
    rintro rfl
    exact absurd (htf.symm.trans huf) (by decide)
  have hap : t.stop ≤ u.addr ∨ u.stop ≤ t.addr := h.placed.apart.forall ht hu htu
  have hsize := (h.placed.sound t ht).size_ge
  simp only [stop] at hap
  omega

end Links

section Remove

/-- A free chunk stands at one place in its bin. -/
theorem bin_split (h : Image gap s es mid (d :: outer) bins) (hd : d.free = true) :
    ∃ l₁ l₂, bins (sizeToBinIndex d.size) = l₁ ++ (d.addr, d.size) :: l₂ ∧
      (bins (sizeToBinIndex d.size)).erase (d.addr, d.size) = l₁ ++ l₂ := by
  have hmem : (d.addr, d.size) ∈ bins (sizeToBinIndex d.size) :=
    (h.binned.mem _ _).mpr ⟨rfl, by rw [freeChunks_cons_free hd]; simp⟩
  obtain ⟨l₁, l₂, hsplit⟩ := List.append_of_mem hmem
  have hfresh : (d.addr, d.size) ∉ l₁ := by
    have := h.binned.nodup (sizeToBinIndex d.size)
    rw [hsplit] at this
    intro hin
    exact (List.nodup_append.mp this).2.2 _ hin _ (by simp) rfl
  exact ⟨l₁, l₂, hsplit, by rw [hsplit, List.erase_append_right _ hfresh, List.erase_cons_head]⟩

/-- No other chunk has the address of `d`. -/
theorem not_mem_freeChunks (h : Image gap s es mid (d :: outer) bins) : (d.addr, d.size) ∉ freeChunks outer := by
  intro hm
  obtain ⟨t, ht, _, he⟩ := mem_freeChunks.mp hm
  obtain rfl : t = d := h.addr_inj (by simp [ht]) (by simp) (congrArg Prod.fst he)
  have hnd := (List.pairwise_append.mp h.placed.apart).2.1
  have hap : t.stop ≤ t.addr ∨ t.stop ≤ t.addr := (List.pairwise_cons.mp hnd).1 t ht
  have := (h.placed.sound t (by simp)).size_ge
  simp only [stop] at hap
  omega

/-- Changing one bin, with what that does to the links of the chunks `l`. -/
theorem relink {s' : Arena} {bins' : Nat → List (Nat × Nat)} {j : Nat} (h : Image gap s es mid outer bins)
    (hp : (mid ++ outer).Perm (mid' ++ outer')) (hl : ∀ x ∈ l, x ∈ (mid ++ outer).map Tile.addr)
    (ho : OnlyLinks l s.mem s'.mem) (hapart : ∀ i, i ≠ j → ∀ x ∈ l, ∀ y ∈ (bins i).map Prod.fst, BinList.Apart y x)
    (hblocks : s'.blocks = s.blocks) (hfoot : ∀ t ∈ outer', t.free = true → t.Footed s.mem)
    (hbinned : Binned bins' (freeChunks outer'))
    (hj : ListAt s'.mem (s'.bins j) ((bins' j).map Prod.fst))
    (hcount : (s'.binAccounting j).chunkCount = UInt64.ofNat (bins' j).length + gap j)
    (hother : ∀ i, i ≠ j → bins' i = bins i ∧ s'.bins i = s.bins i ∧
      (s'.binAccounting i).chunkCount = (s.binAccounting i).chunkCount) :
    Image gap s' es mid' outer' bins' := by
  refine ⟨h.placed.perm hp, fun t ht => h.links_header hl ho (hp.mem_iff.mpr ht), fun t ht hf => ?_, hbinned,
    fun i hi => ?_, hblocks ▸ h.links_chain hl ho, fun i hi => ?_⟩
  · exact h.links_footer hl ho (hp.mem_iff.mpr (by simp [ht])) (hfoot t ht hf)
  · by_cases hij : i = j
    · exact hij ▸ hj
    · rw [(hother i hij).1, (hother i hij).2.1]
      exact h.links_list hi ho (hapart i hij)
  · by_cases hij : i = j
    · exact hij ▸ hcount
    · rw [(hother i hij).1, (hother i hij).2.2]
      exact h.counts i hi

/-- What taking a free chunk out of its bin does to the memory. -/
theorem remove_links (h : Image gap s es mid (d :: outer) bins) (bucket : AccountingBucket) (hd : d.free = true) :
    (∀ x ∈ (bins (sizeToBinIndex d.size)).map Prod.fst, x ∈ (mid ++ d :: outer).map Tile.addr) ∧
      OnlyLinks ((bins (sizeToBinIndex d.size)).map Prod.fst) s.mem (s.removeChunkFromBin d.addr bucket).mem ∧
      ListAt (s.removeChunkFromBin d.addr bucket).mem
        ((s.removeChunkFromBin d.addr bucket).bins (sizeToBinIndex d.size))
        (((bins (sizeToBinIndex d.size)).erase (d.addr, d.size)).map Prod.fst) := by
  have hsize : size s.mem d.addr = d.size := (h.headers d (by simp)).size_eq
  obtain ⟨l₁, l₂, hsplit, herase⟩ := h.bin_split hd
  have hmap : (bins (sizeToBinIndex d.size)).map Prod.fst = l₁.map Prod.fst ++ d.addr :: l₂.map Prod.fst := by
    simp [hsplit]
  have hsub : ∀ x ∈ (bins (sizeToBinIndex d.size)).map Prod.fst, x ∈ (mid ++ d :: outer).map Tile.addr := by
    intro x hx
    obtain ⟨t, ht, _, rfl, _⟩ := h.bin_addrs hx
    exact List.mem_map_of_mem (List.mem_append_right _ ht)
  have hlist := h.lists _ (sizeToBinIndex_lt d.size)
  have hnodup := h.bin_nodup (sizeToBinIndex d.size)
  have hspread : Spread ((bins (sizeToBinIndex d.size)).map Prod.fst) :=
    fun x hx y hy => h.spread x (hsub x hx) y (hsub y hy)
  rw [hmap] at hlist hnodup hspread
  obtain ⟨hnew, honly⟩ := unlinkFromList_spec hlist hnodup hspread
  rw [← hmap] at honly
  refine ⟨hsub, ?_, ?_⟩
  · simp only [Arena.removeChunkFromBin, hsize]
    exact honly
  · simp only [Arena.removeChunkFromBin, hsize, Function.update_self, herase, List.map_append]
    exact hnew

/-- Taking a free chunk out of its bin. -/
theorem remove (h : Image gap s es mid (d :: outer) bins) (bucket : AccountingBucket) (hd : d.free = true) :
    Image gap (s.removeChunkFromBin d.addr bucket) es (d :: mid) outer (unbin bins (d.addr, d.size)) := by
  have hsize : size s.mem d.addr = d.size := (h.headers d (by simp)).size_eq
  have hlt := sizeToBinIndex_lt d.size
  obtain ⟨l₁, l₂, hsplit, herase⟩ := h.bin_split hd
  obtain ⟨hsub, honly, hnew⟩ := h.remove_links bucket hd
  have hbinned := h.binned
  rw [freeChunks_cons_free hd] at hbinned
  refine h.relink List.perm_middle hsub honly (fun i hi x hx y hy => h.bins_disjoint hy hx hi)
    (s.removeChunkFromBin_blocks d.addr bucket)
    (fun t ht => h.footers t (by simp [ht])) (hbinned.unbin h.not_mem_freeChunks) ?_ ?_ (fun i hi => ?_)
  · rw [Allocator.unbin, Function.update_self]
    exact hnew
  · have hc := h.counts _ hlt
    rw [hsplit, List.length_append, List.length_cons, ← Nat.add_assoc, UInt64.ofNat_add] at hc
    simp only [Arena.removeChunkFromBin, hsize, Function.update_self, BinAccountingInfo.removeChunk_chunkCount, hc,
      Allocator.unbin, herase, List.length_append, UInt64.ofNat_add]
    have hone : UInt64.ofNat 1 = 1 := rfl
    grind
  · refine ⟨Function.update_of_ne hi _ _, ?_, ?_⟩ <;>
      simp only [Arena.removeChunkFromBin, hsize, Function.update_of_ne hi]

theorem remove_keeps (h : Image gap s es mid (d :: outer) bins) (bucket : AccountingBucket) (hd : d.free = true) :
    KeepsChunks (liveChunks (mid ++ outer)) s.mem (s.removeChunkFromBin d.addr bucket).mem := by
  obtain ⟨-, honly, -⟩ := h.remove_links bucket hd
  have hkeeps := h.links_keeps (fun x hx => ?_) honly
  · rwa [liveChunks_append, liveChunks_cons_free hd, ← liveChunks_append] at hkeeps
  · obtain ⟨t, ht, htf, rfl, -⟩ := h.bin_addrs hx
    exact ⟨t, List.mem_append_right _ ht, htf, rfl⟩

/-- The footer of the chunk stays. -/
theorem remove_footed (h : Image gap s es mid (d :: outer) bins) (bucket : AccountingBucket) (hd : d.free = true) :
    d.Footed (s.removeChunkFromBin d.addr bucket).mem := by
  obtain ⟨hsub, honly, _⟩ := h.remove_links bucket hd
  exact h.links_footer hsub honly (by simp) (h.footers d (by simp) hd)

end Remove

section Insert

/-- A chunk in the works is not in the bins. -/
theorem not_mem_outer (h : Image gap s es (d :: mid) outer bins) : (d.addr, d.size) ∉ freeChunks outer := by
  intro hm
  obtain ⟨t, ht, _, he⟩ := mem_freeChunks.mp hm
  obtain rfl : t = d := h.addr_inj (by simp [ht]) (by simp) (congrArg Prod.fst he)
  have hap : t.stop ≤ t.addr ∨ t.stop ≤ t.addr := (List.pairwise_cons.mp h.placed.apart).1 t (by simp [ht])
  have := (h.placed.sound t (by simp)).size_ge
  simp only [stop] at hap
  omega

/-- Putting a free chunk into its bin. -/
theorem insert (h : Image gap s es (d :: mid) outer bins) (hd : d.free = true) (hf : d.Footed s.mem)
    (bucket : Option AccountingBucket) :
    ∃ s', s.addFreeChunk d.addr bucket = some s' ∧ s'.accounting = s.accounting ∧
      Image gap s' es mid (d :: outer) (rebin bins (d.addr, d.size)) ∧
      (∀ t ∈ mid, t.Footed s.mem → t.Footed s'.mem) ∧ KeepsChunks (liveChunks (mid ++ outer)) s.mem s'.mem := by
  have hsize : size s.mem d.addr = d.size := (h.headers d (by simp)).size_eq
  have hlt := sizeToBinIndex_lt d.size
  have hmem : ∀ x ∈ d.addr :: (bins (sizeToBinIndex d.size)).map Prod.fst,
      x ∈ ((d :: mid) ++ outer).map Tile.addr := by
    intro x hx
    rcases List.mem_cons.mp hx with rfl | hx
    · simp
    · obtain ⟨t, ht, _, rfl, _⟩ := h.bin_addrs hx
      exact List.mem_map_of_mem (List.mem_append_right _ ht)
  have hfresh : d.addr ∉ (bins (sizeToBinIndex d.size)).map Prod.fst := by
    intro hx
    obtain ⟨t, ht, htf, ha, _⟩ := h.bin_addrs hx
    obtain rfl := h.addr_inj (by simp [ht]) (by simp) ha
    exact h.not_mem_outer (mem_freeChunks.mpr ⟨t, ht, htf, rfl⟩)
  have haddr : ∀ x ∈ d.addr :: (bins (sizeToBinIndex d.size)).map Prod.fst, 0 < x ∧ x < 2 ^ 64 := by
    intro x hx
    obtain ⟨t, ht, rfl⟩ := List.mem_map.mp (hmem x hx)
    exact h.addr_lt t ht
  obtain ⟨m', head, hres, hnew, honly⟩ := linkIntoSortedList_spec (h.lists _ hlt)
    (List.nodup_cons.mpr ⟨hfresh, h.bin_nodup _⟩) (fun x hx y hy => h.spread x (hmem x hx) y (hmem y hy))
    (haddr _ (by simp)).1.ne' (fun x hx => (haddr x hx).2) (by rw [List.length_map]; exact h.bin_length _)
  rw [smaller_cons_notSmaller] at hnew
  have hsizes : ∀ c ∈ bins (sizeToBinIndex d.size), size s.mem c.1 = c.2 := by
    intro c hc
    obtain ⟨t, ht, _, rfl⟩ := h.mem_bin hc
    exact (h.headers t (by simp [ht])).size_eq
  have hmap : ((bins (sizeToBinIndex d.size)).orderedInsert (fun y z => y.2 ≤ z.2) (d.addr, d.size)).map Prod.fst =
      ((bins (sizeToBinIndex d.size)).map Prod.fst).orderedInsert (fun x y => size s.mem x ≤ size s.mem y) d.addr :=
    List.map_orderedInsert _ _ Prod.fst _ _ (fun c hc => by simp only [hsizes c hc, hsize])
      (fun c hc => by simp only [hsizes c hc, hsize])
  rw [← hsize] at hres
  have hkeeps := h.links_keeps (fun x hx => ?_) honly
  swap
  · rcases List.mem_cons.mp hx with rfl | hx
    · exact ⟨d, by simp, hd, rfl⟩
    · obtain ⟨t, ht, htf, rfl, -⟩ := h.bin_addrs hx
      exact ⟨t, List.mem_append_right _ ht, htf, rfl⟩
  rw [List.cons_append, liveChunks_cons_free hd] at hkeeps
  refine ⟨_, s.addFreeChunk_eq d.addr bucket hres, rfl, ?_,
    fun t ht htf => h.links_footer hmem honly (by simp [ht]) htf, hkeeps⟩
  rw [hsize]
  refine @relink gap s es (d :: mid) mid outer (d :: outer) bins _ _ _ (sizeToBinIndex d.size) h
    List.perm_middle.symm hmem honly (fun i hi x hx y hy => ?_) rfl (fun t ht htf => ?_)
    (by rw [freeChunks_cons_free hd]; exact h.binned.rebin h.not_mem_outer) ?_ ?_ (fun i hi => ?_)
  · rcases List.mem_cons.mp hx with rfl | hx
    · obtain ⟨t, ht, htf, rfl, _⟩ := h.bin_addrs hy
      refine (h.spread _ (List.mem_map_of_mem (List.mem_append_right _ ht)) _ (hmem _ (by simp))).resolve_left ?_
      intro he
      obtain rfl := h.addr_inj (by simp [ht]) (by simp) he
      exact h.not_mem_outer (mem_freeChunks.mpr ⟨t, ht, htf, rfl⟩)
    · exact h.bins_disjoint hy hx hi
  · rcases List.mem_cons.mp ht with rfl | ht
    · exact hf
    · exact h.footers t ht htf
  · simp only [Function.update_self, Allocator.rebin, hmap]
    exact hnew
  · have hone : UInt64.ofNat 1 = 1 := rfl
    simp only [Function.update_self, BinAccountingInfo.addChunk_chunkCount, h.counts _ hlt, Allocator.rebin,
      List.orderedInsert_length, UInt64.ofNat_add]
    grind
  · exact ⟨Function.update_of_ne hi _ _, Function.update_of_ne hi _ _, by simp only [Function.update_of_ne hi]⟩

end Insert

section Recut

/-- What an effect on the abutting tiles `old` leaves alone. -/
theorem keep {a b : Nat} (hne : old ≠ []) (ha : Abut lo old hi) (hpost : ∀ d ∈ post.head?, d.addr = hi)
    (he : Effect lo hi post m m') (hab : a < b) (ho : ∀ t ∈ old, b ≤ t.addr ∨ t.stop ≤ a)
    (hd : ∀ d ∈ post.head?, b ≤ d.addr ∨ d.addr + 8 ≤ a) : EqOn m m' a b := by
  have hout := ha.outside hne hab ho
  refine he a b hout ?_
  cases post with
  | nil => exact .inl rfl
  | cons d post =>
      have hda := hpost d (by simp)
      have hdd := hd d (by simp)
      omega

/-- Beside its header, no tile outside changes. -/
theorem keep_body {a b : Nat} (h : Image gap s es old (post ++ rest) bins) (hne : old ≠ []) (ha : Abut lo old hi)
    (hpost : ∀ d ∈ post.head?, d.addr = hi) (he : Effect lo hi post s.mem m') (hu : u ∈ post ++ rest)
    (h1 : u.addr + 8 ≤ a) (hab : a < b) (h2 : b ≤ u.stop) : EqOn s.mem m' a b := by
  refine keep hne ha hpost he hab (fun t ht => ?_) (fun d hd => ?_)
  · have hap : t.stop ≤ u.addr ∨ u.stop ≤ t.addr := (List.pairwise_append.mp h.placed.apart).2.2 t ht u hu
    omega
  · by_cases hdu : d = u
    · subst hdu
      exact .inr h1
    · have hdm : d ∈ post ++ rest := by simp [List.mem_of_mem_head? hd]
      have hap : d.stop ≤ u.addr ∨ u.stop ≤ d.addr :=
        (List.pairwise_append.mp h.placed.apart).2.1.forall hdm hu hdu
      have hs := (h.placed.sound d (by simp [List.mem_of_mem_head? hd])).size_ge
      simp only [stop] at hap h2
      omega

theorem effect_keeps (h : Image gap s es old (post ++ rest) bins) (hne : old ≠ []) (ha : Abut lo old hi)
    (hpost : ∀ d ∈ post.head?, d.addr = hi) (he : Effect lo hi post s.mem m') :
    KeepsChunks (liveChunks (post ++ rest)) s.mem m' := by
  intro c hc
  obtain ⟨u, hu, -, rfl⟩ := mem_liveChunks.mp hc
  have hsize := (h.placed.sound u (List.mem_append_right _ hu)).size_ge
  exact h.keep_body hne ha hpost he hu (Nat.le_refl _) (by simp only; omega) (Nat.le_refl _)

/-- Beside the tile that follows, no tile outside changes at all. -/
theorem keep_header (h : Image gap s es old (post ++ rest) bins) (hne : old ≠ []) (ha : Abut lo old hi)
    (hpost : ∀ d ∈ post.head?, d.addr = hi) (he : Effect lo hi post s.mem m') (hu : u ∈ post ++ rest)
    (hhead : u ∉ post.head?) : u.In m' := by
  have hsu := (h.placed.sound u (by simp [hu])).size_ge
  refine (h.headers u (by simp [hu])).congr (keep hne ha hpost he (by omega) (fun t ht => ?_) (fun d hd => ?_))
  · have hap : t.stop ≤ u.addr ∨ u.stop ≤ t.addr := (List.pairwise_append.mp h.placed.apart).2.2 t ht u hu
    simp only [stop] at hap ⊢
    omega
  · have hdu : d ≠ u := by
      rintro rfl
      exact hhead hd
    have hdm : d ∈ post ++ rest := by simp [List.mem_of_mem_head? hd]
    have hap : d.stop ≤ u.addr ∨ u.stop ≤ d.addr :=
      (List.pairwise_append.mp h.placed.apart).2.1.forall hdm hu hdu
    have hs := (h.placed.sound d (by simp [List.mem_of_mem_head? hd])).size_ge
    simp only [stop] at hap
    omega

theorem keep_chain (h : Image gap s es old (post ++ rest) bins) (hne : old ≠ []) (ha : Abut lo old hi)
    (hpost : ∀ d ∈ post.head?, d.addr = hi) (he : Effect lo hi post s.mem m') : BlocksAt m' s.blocks es := by
  refine h.chain.congr fun e hem => keep hne ha hpost he (by omega) (fun t ht => ?_) (fun d hd => ?_)
  · exact h.placed.clear e hem t (by simp [ht])
  · have hdm : d ∈ old ++ (post ++ rest) := by simp [List.mem_of_mem_head? hd]
    have hclear := h.placed.clear e hem d hdm
    have hs := (h.placed.sound d hdm).size_ge
    simp only [stop] at hclear
    omega

/-- Cutting the chunks in the works in another way. -/
theorem recut (h : Image gap s es old (post ++ rest) bins) (hne : old ≠ []) (ha : Abut lo old hi)
    (hpost : ∀ d ∈ post.head?, d.addr = hi) (he : Effect lo hi post s.mem m') (f : Bool)
    (hp : Placed es (new ++ (setPredFree f post ++ rest))) (hnew : ∀ t ∈ new, t.In m')
    (hhead : ∀ d ∈ (setPredFree f post).head?, d.In m') :
    Image gap { s with mem := m' } es new (setPredFree f post ++ rest) bins := by
  -- a tile outside is the one that follows, told of its predecessor, or as before
  have houter : ∀ t ∈ setPredFree f post ++ rest,
      (t ∈ (setPredFree f post).head? ∧ ∃ d ∈ post.head?, t = { d with predFree := f }) ∨
        (t ∈ post ++ rest ∧ t ∉ post.head?) := by
    intro t ht
    have happ := (List.pairwise_append.mp h.placed.apart).2.1
    cases post with
    | nil => exact .inr ⟨ht, by simp⟩
    | cons d post =>
        simp only [setPredFree, List.cons_append, List.mem_cons] at ht
        rcases ht with rfl | ht
        · exact .inl ⟨by simp [setPredFree], d, by simp, rfl⟩
        · refine .inr ⟨by simp only [List.cons_append, List.mem_cons, ht, or_true], ?_⟩
          intro hd
          obtain rfl : d = t := by simpa using hd
          have hself : d.stop ≤ d.addr ∨ d.stop ≤ d.addr := (List.pairwise_cons.mp happ).1 d ht
          have := (h.placed.sound d (by simp)).size_ge
          simp only [stop] at hself
          omega
  refine ⟨hp, fun t ht => ?_, fun t ht hf => ?_, ?_, fun i hi => ?_, h.keep_chain hne ha hpost he, h.counts⟩
  · rcases List.mem_append.mp ht with ht | ht
    · exact hnew t ht
    · rcases houter t ht with ⟨ht, _⟩ | ⟨ht, hth⟩
      · exact hhead t ht
      · exact h.keep_header hne ha hpost he ht hth
  · have hold : ∃ u ∈ post ++ rest, u.free = t.free ∧ u.addr = t.addr ∧ u.size = t.size := by
      rcases houter t ht with ⟨_, d, hd, rfl⟩ | ⟨ht, _⟩
      · exact ⟨d, by simp [List.mem_of_mem_head? hd], rfl, rfl, rfl⟩
      · exact ⟨t, ht, rfl, rfl, rfl⟩
    obtain ⟨u, hu, huf, hua, hus⟩ := hold
    have hstop : t.stop = u.stop := by rw [stop, stop, hua, hus]
    have hsu := (h.placed.sound u (by simp [hu])).size_ge
    have hfoot : u.Footed m' := by
      refine (h.footers u hu (huf.trans hf)).congr (h.keep_body hne ha hpost he hu ?_ (by omega) ?_)
      all_goals simp only [stop]; omega
    rw [Footed, hstop, ← hus]
    exact hfoot
  · have := h.binned
    rw [freeChunks_append] at this ⊢
    rwa [freeChunks_setPredFree]
  · refine (h.lists i hi).congr fun x hx => ?_
    obtain ⟨t, ht, _, rfl, _⟩ := h.bin_addrs hx
    have hst := (h.placed.sound t (by simp [ht])).size_ge
    refine h.keep_body hne ha hpost he ht le_rfl (by omega) ?_
    simp only [stop]
    omega

end Recut

end Image

end XviOs.Allocator
