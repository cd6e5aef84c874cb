import XviOs.Allocator.Worked

namespace XviOs.Allocator

open Library.LittleEndian Chunk Tile SizeClass BinList

variable {gap : Nat → UInt64} {s : Arena} {k : Spot} {mid post : List Tile}
  {bins : Nat → List (Nat × Nat)} {t d : Tile}

namespace Worked

/-- Setting the `Free` flag of the chunk. -/
theorem mark (h : Worked gap s k [t] post bins) (f : Bool) :
    Worked gap { s with mem := tell f post ({ t with free := f }.put s.mem) } k [{ t with free := f }]
      (setPredFree f post) bins := by
  have hsize := (h.sound t (by simp)).size_ge
  obtain ⟨hin, hhead, heff⟩ := mark_spec f (h.mem_header (by simp)) (h.followed rfl) (by omega)
  refine h.recut (by simp) (by simp) ⟨rfl, rfl⟩ h.head_addr heff f ?_ ?_ ?_ (by simpa using hin) hhead
  · rintro p a q e ⟨ha, hp, hr⟩
    obtain ⟨q', hq'⟩ := hr.setPredFree f
    exact ⟨q', ha, hp, hq'⟩
  · intro hl
    simpa [LastOnly, isEmpty_setPredFree] using hl
  · obtain ⟨h1, h2, h3⟩ := h.sound t (by simp)
    intro u hu
    obtain rfl : u = { t with free := f } := by simpa using hu
    exact ⟨h1, h2, h3⟩

/-- Setting the flag leaves the contents of the other chunks in use as they are. -/
theorem mark_keeps (h : Worked gap s k [t] post bins) (f : Bool) :
    KeepsChunks (liveChunks (post ++ k.rest)) s.mem (tell f post ({ t with free := f }.put s.mem)) := by
  have hsize := (h.sound t (by simp)).size_ge
  obtain ⟨-, -, heff⟩ := mark_spec f (h.mem_header (by simp)) (h.followed rfl) (by omega)
  exact h.image.effect_keeps (by simp) ⟨rfl, rfl⟩ h.head_addr heff

theorem merge_eq (h : Worked gap s k [t, d] post bins) (hd : d.free = true) :
    mergeWithSuccessor s.mem t.addr = { t with size := t.size + d.size, last := d.last }.put s.mem := by
  have hlt := h.stop_le d (by simp)
  have hda := ((h.followed rfl).next d (by simp)).2
  have hpos := (h.sound t (by simp)).pos
  simp only [stop] at hlt hda
  exact mergeWithSuccessor_eq (h.mem_header (by simp)) (h.followed rfl) hd (by omega)

/-- So does merging. -/
theorem merge_keeps (h : Worked gap s k [t, d] post bins) (hd : d.free = true) :
    KeepsChunks (liveChunks (post ++ k.rest)) s.mem (mergeWithSuccessor s.mem t.addr) := by
  obtain ⟨p, a, q, _, hrun⟩ := h.layout.run
  obtain ⟨_, _, hda, _, hpost⟩ := hrun
  have hsize := (h.sound t (by simp)).size_ge
  have hend : d.stop = t.addr + (t.size + d.size) := by rw [stop, hda, stop, Nat.add_assoc]
  rw [h.merge_eq hd]
  exact h.image.effect_keeps (by simp) ⟨rfl, hda, rfl⟩ hpost.head_addr (put_effect (by dsimp only; omega))

/-- Two chunks, of which the second is free, become one. -/
theorem merge (h : Worked gap s k [t, d] post bins) (ht : t.free = true) (hd : d.free = true) :
    Worked gap { s with mem := mergeWithSuccessor s.mem t.addr } k
      [{ t with size := t.size + d.size, last := d.last }] post bins := by
  obtain ⟨p, a, q, _, hrun⟩ := h.layout.run
  obtain ⟨_, _, hda, _, hpost⟩ := hrun
  have htold : setPredFree true post = post := hd ▸ hpost.setPredFree_eq
  have hts := h.sound t (by simp)
  have hds := h.sound d (by simp)
  have hlt := h.stop_le d (by simp)
  have hend : d.stop = t.addr + (t.size + d.size) := by rw [stop, hda, stop, Nat.add_assoc]
  have hpos := hts.pos
  have hsum : t.size + d.size < 2 ^ 64 := by omega
  rw [mergeWithSuccessor_eq (h.mem_header (by simp)) (h.followed rfl) hd hsum, ← htold]
  have hmod : (t.size + d.size) % 8 = 0 := by
    have := hts.size_mod
    have := hds.size_mod
    omega
  have hsize := hts.size_ge
  have heff : Effect t.addr d.stop post s.mem ({ t with size := t.size + d.size, last := d.last }.put s.mem) :=
    put_effect (by dsimp only; omega)
  refine h.recut (by simp) (by simp) ⟨rfl, hda, rfl⟩ hpost.head_addr heff true ?_ ?_ ?_ ?_ ?_
  · rintro p a q e ⟨ha, hp, hda, hdp, hr⟩
    rw [hd] at hr
    rw [htold]
    refine ⟨q, ha, hp, ?_⟩
    show Run t.free (t.addr + (t.size + d.size)) post q e
    rw [← hend, ht]
    exact hr
  · rintro ⟨_, hl⟩
    simpa [LastOnly, isEmpty_setPredFree] using hl
  · intro u hu
    obtain rfl : u = { t with size := t.size + d.size, last := d.last } := by simpa using hu
    exact ⟨hts.min.trans (Nat.le_add_right _ _), hmod, hts.aligned⟩
  · intro u hu
    obtain rfl : u = { t with size := t.size + d.size, last := d.last } := by simpa using hu
    exact put_in hmod hsum
  · rw [htold]
    intro e he
    have hea := hpost.head_addr e he
    refine (h.mem_header (by simp [List.mem_of_mem_head? he])).put_of_disjoint ?_
    rw [hea]
    dsimp only
    omega

/-- `doFree` on a chunk that is marked free already writes its footer. -/
theorem doFree (h : Worked gap s k [t] post bins) (ht : t.free = true) :
    Worked gap { s with mem := Chunk.doFree s.mem t.addr } k [t] post bins ∧
      t.Footed (Chunk.doFree s.mem t.addr) := by
  have hsize := (h.sound t (by simp)).size_ge
  have hself : { t with free := true } = t := by rw [← ht]
  have htold : setPredFree true post = post := ht ▸ h.told
  obtain ⟨hin, hfoot, hhead, heff⟩ := doFree_spec (h.mem_header (by simp)) (h.followed rfl) (by omega)
  rw [hself] at hin hfoot
  refine ⟨?_, hfoot⟩
  have hsound := h.sound t (by simp)
  have := @recut gap s k post [t] [t] bins _ _ _ h (by simp) (by simp) ⟨rfl, rfl⟩ h.head_addr heff true
    (by rw [htold]; exact fun p a q e hr => ⟨q, hr⟩) (by rw [htold]; exact id) (by simpa using hsound)
    (by simpa using hin) hhead
  rwa [htold] at this

theorem doFree_keeps (h : Worked gap s k [t] post bins) :
    KeepsChunks (liveChunks (post ++ k.rest)) s.mem (Chunk.doFree s.mem t.addr) := by
  have hsize := (h.sound t (by simp)).size_ge
  obtain ⟨-, -, -, heff⟩ := doFree_spec (h.mem_header (by simp)) (h.followed rfl) (by omega)
  exact h.image.effect_keeps (by simp) ⟨rfl, rfl⟩ h.head_addr heff

end Worked

section Merge

/-- `free` leaves no free chunk after the one it frees. -/
theorem freeMergeSuccessor_spec (h : Worked gap s k [t] post bins) (ht : t.free = true) (hq : Quiet post.tail) :
    ∃ s' merged t' post' bins', s.freeMergeSuccessor t.addr = (s', merged) ∧
      Worked gap s' k [t'] post' bins' ∧ (t'.addr = t.addr ∧ t'.free = true ∧ t'.predFree = t.predFree) ∧
      (Quiet post' ∧ ∀ d ∈ post'.head?, d.free = false) ∧ liveChunks post' = liveChunks post ∧
      (SortedBins bins → SortedBins bins') ∧ s'.usage = s.usage ∧
      KeepsChunks (liveChunks (post ++ k.rest)) s.mem s'.mem := by
  have hin : t.In s.mem := h.mem_header (by simp)
  have hf := h.followed rfl
  cases post with
  | nil =>
      have hl : t.last = true := hf.last
      have hsucc : isSuccessorFree s.mem t.addr = false := by rw [isSuccessorFree, hin.isLast_eq, hl]; rfl
      exact ⟨s, false, t, [], bins, by rw [Arena.freeMergeSuccessor, hsucc]; rfl, h, ⟨rfl, ht, rfl⟩,
        ⟨hq, by simp⟩, rfl, id, rfl, .refl _ _⟩
  | cons d post =>
      have hl : t.last = false := by simpa using hf.last
      obtain ⟨hdin, hda⟩ := hf.next d (by simp)
      have hnext : successor s.mem t.addr = d.addr := by rw [hin.successor_eq, hl, hda]; rfl
      have hsucc : isSuccessorFree s.mem t.addr = d.free := by
        rw [isSuccessorFree, hin.isLast_eq, hl, hnext, hdin.isFree_eq]
        rfl
      cases hdf : d.free with
      | false =>
          rw [hdf] at hsucc
          refine ⟨s, false, t, d :: post, bins, by rw [Arena.freeMergeSuccessor, hsucc]; rfl, h, ⟨rfl, ht, rfl⟩,
            ⟨quiet_cons.mpr ⟨fun hc => ?_, hq⟩, ?_⟩, rfl, id, rfl, .refl _ _⟩
          · rw [hdf] at hc
            exact absurd hc (by decide)
          · intro e he
            obtain rfl : d = e := by simpa using he
            exact hdf
      | true =>
          rw [hdf] at hsucc
          have hremoved := h.removeSuccessor .mergeFromCount hdf
          have hmerged := hremoved.merge ht hdf
          refine ⟨_, true, _, post, _, by rw [Arena.freeMergeSuccessor, hsucc, hnext]; rfl,
            hmerged.recordMerge, ⟨rfl, ht, rfl⟩, ⟨hq, ?_⟩, (liveChunks_cons_free hdf post).symm,
            fun hs => hs.unbin _, ?_, ?_⟩
          · obtain ⟨_, _, _, _, _, _, _, _, hrun⟩ := h.layout.run
            exact hq.head_live (hdf ▸ hrun.head_predFree)
          · rw [Arena.recordMerge_usage, Arena.removeChunkFromBin_usage]
          · have hkeeps := h.removeSuccessor_keeps .mergeFromCount hdf
            rw [List.singleton_append, liveChunks_cons_free ht] at hkeeps
            rw [List.cons_append, liveChunks_cons_free hdf]
            exact hkeeps.trans (hremoved.merge_keeps hdf)

/-- The footer before a chunk leads to its free predecessor. -/
theorem predecessor_eq {m : Mem} (ht : t.In m) (hp : t.predFree = true) (hd : d.Footed m) (ha : d.stop = t.addr)
    (hs : 8 ≤ d.size) : predecessor m t.addr = d.addr := by
  have hstop : t.addr = d.addr + d.size := ha.symm
  have hfoot : read64 m (t.addr - 8) = d.size := ha ▸ hd
  simp only [predecessor, ht.isPredecessorFree_eq, hp, if_true, predecessorFooter, footerChunk,
    sizeofFreeChunkFooter, hfoot]
  omega

/-- `free` leaves no free chunk before the one it frees. -/
theorem freeMergePredecessor_spec (h : Worked gap s k [t] post bins) (ht : t.free = true) (hq : Quiet k.rest) :
    ∃ s' c merged k' t' bins', s.freeMergePredecessor t.addr = (s', c, merged) ∧
      Worked gap s' k' [t'] post bins' ∧ (t'.addr = c ∧ t'.free = true ∧ t'.predFree = false) ∧
      k'.extents = k.extents ∧ Quiet k'.rest ∧ (liveChunks k'.rest).Perm (liveChunks k.rest) ∧
      (SortedBins bins → SortedBins bins') ∧ s'.usage = s.usage ∧
      KeepsChunks (liveChunks (post ++ k.rest)) s.mem s'.mem := by
  have hin : t.In s.mem := h.mem_header (by simp)
  cases hp : t.predFree with
  | false =>
      have hpred : isPredecessorFree s.mem t.addr = false := by rw [hin.isPredecessorFree_eq, hp]
      exact ⟨s, t.addr, false, k, t, bins, by rw [Arena.freeMergePredecessor, hpred]; rfl, h, ⟨rfl, ht, hp⟩,
        rfl, hq, List.Perm.refl _, id, rfl, .refl _ _⟩
  | true =>
      have hpred : isPredecessorFree s.mem t.addr = true := by rw [hin.isPredecessorFree_eq, hp]
      obtain ⟨k, d, rfl, hdf, hda⟩ := h.layout.pred_of_predFree hp
      have hrest := k.rest_step d
      have hqd := hq.perm hrest
      have himage := h.image.perm (List.Perm.refl _) ((hrest.append_left post).trans List.perm_middle)
      have hds := (himage.placed.sound d (by simp)).size_ge
      have hremoved := h.removePredecessor .mergeFromCount hdf
      have hfoot : d.Footed (s.removeChunkFromBin d.addr .mergeFromCount).mem := himage.remove_footed .mergeFromCount hdf
      have hpd : predecessor s.mem t.addr = d.addr :=
        predecessor_eq hin hp (himage.footers d (by simp) hdf) hda (by omega)
      have hin' : t.In (s.removeChunkFromBin d.addr .mergeFromCount).mem := hremoved.mem_header (by simp)
      have hpd' : predecessor (s.removeChunkFromBin d.addr .mergeFromCount).mem t.addr = d.addr :=
        predecessor_eq hin' hp hfoot hda (by omega)
      have hpred' : isPredecessorFree (s.removeChunkFromBin d.addr .mergeFromCount).mem t.addr = true := by
        rw [hin'.isPredecessorFree_eq, hp]
      have hmerged := hremoved.merge hdf ht
      refine ⟨_, d.addr, true, k, _, _, ?_, hmerged.recordMerge, ⟨rfl, hdf, hqd d (by simp) hdf⟩, rfl,
        (quiet_cons.mp hqd).2, ?_, fun hs => hs.unbin _, ?_, ?_⟩
      · simp only [Arena.freeMergePredecessor, hpred, if_true, hpd, mergeWithPredecessor, hpred', hpd']
      · have := liveChunks_perm hrest
        rw [liveChunks_cons_free hdf] at this
        exact this.symm
      · rw [Arena.recordMerge_usage, Arena.removeChunkFromBin_usage]
      · have hkeeps := h.removePredecessor_keeps .mergeFromCount hdf
        rw [List.singleton_append, liveChunks_cons_free ht] at hkeeps
        refine (hkeeps.trans (hremoved.merge_keeps ht)).mono fun c hc => ?_
        have hp := liveChunks_perm hrest
        rw [liveChunks_cons_free hdf] at hp
        rw [liveChunks_append] at hc ⊢
        exact (hp.append_left _).mem_iff.mp hc

end Merge

theorem free_spec (h : Worked gap s k [] (t :: post) bins) (ht : t.free = false)
    (hq : Quiet ((t :: post) ++ k.rest)) :
    ∃ s' k' ts' bins', s.free (t.addr + 8) = some s' ∧ Worked gap s' k' [] ts' bins' ∧
      k'.extents = k.extents ∧ Quiet (ts' ++ k'.rest) ∧
      (liveChunks ((t :: post) ++ k.rest)).Perm ((t.addr, t.size) :: liveChunks (ts' ++ k'.rest)) ∧
      (SortedBins bins → SortedBins bins') ∧
      s'.usage = (s.usage.1 - 1, s.usage.2 - UInt64.ofNat t.size) ∧
      KeepsChunks (liveChunks (post ++ k.rest)) s.mem s'.mem := by
  obtain ⟨hq1, hq2⟩ := quiet_append.mp hq
  have hin : t.In s.mem := h.mem_header (by simp)
  have hsize := (h.sound t (by simp)).size_ge
  -- the chunk is marked free
  have hmark : markFree s.mem t.addr = tell true post ({ t with free := true }.put s.mem) :=
    markFree_eq hin ((h.unsettle ht).followed rfl) (by omega)
  have h₁ := (h.unsettle ht).mark true
  rw [← hmark] at h₁
  obtain ⟨s₁, hs₁⟩ : ∃ s₁ : Arena, s₁ = { s with
      mem := markFree s.mem t.addr
      accounting := { s.accounting with
        freeCount := s.accounting.freeCount + 1
        chunksAllocated := s.accounting.chunksAllocated - 1
        allocatedSize := s.accounting.allocatedSize - UInt64.ofNat t.size } } := ⟨_, rfl⟩
  have hw₁ : Worked gap s₁ k [{ t with free := true }] (setPredFree true post) bins := by
    rw [hs₁]
    exact h₁.congr rfl rfl rfl (fun _ => rfl)
  have hqt : Quiet (setPredFree true post).tail := by
    cases post with
    | nil => exact fun u hu => absurd hu (by simp [setPredFree])
    | cons d post => exact fun u hu => hq1 u (List.mem_cons_of_mem _ (List.mem_cons_of_mem _ hu))
  -- it is merged with its neighbours
  obtain ⟨s₂, ms, t₂, post₂, bins₂, hms, hw₂, ⟨ha₂, hf₂, _⟩, ⟨hqp₂, hhead₂⟩, hlive₂, hsort₂, hu₂, hkeeps₂⟩ :=
    freeMergeSuccessor_spec hw₁ rfl hqt
  obtain ⟨s₃, c, mp, k₃, t₃, bins₃, hmp, hw₃, ⟨hc₃, hf₃, hp₃⟩, hext₃, hq₃, hlive₃, hsort₃, hu₃, hkeeps₃⟩ :=
    freeMergePredecessor_spec hw₂ hf₂ hq2
  -- and put into its bin
  obtain ⟨hw₄, hfoot⟩ := hw₃.doFree hf₃
  obtain ⟨s₅, hadd, hacct, hw₅, hkeeps₅⟩ := @Worked.insert gap _ k₃ [] post₂ bins₃ t₃ hw₄ hf₃ hfoot (some .freeCount)
  have hfree : s.free (t.addr + 8) = some (if ms || mp then
      s₅.incrementBin (sizeToBinIndex (size s₅.mem c)) .mergeToCount else s₅) := by
    have hchunk : fromDataPointer (t.addr + 8) = t.addr := rfl
    have hlive : isFree s.mem t.addr = false := by rw [hin.isFree_eq, ht]
    rw [ha₂] at hmp
    rw [hc₃] at hadd
    simp only [Arena.free, hchunk, hlive, hin.size_eq, Nat.add_eq_zero_iff, Nat.reduceEqDiff, and_false, if_false,
      Bool.false_eq_true, ← hs₁, hms, hmp, hadd, Option.bind_eq_bind, Option.bind_some]
    cases ms || mp <;> rfl
  have husage : s₅.usage = (s.usage.1 - 1, s.usage.2 - UInt64.ofNat t.size) := by
    have h₅ : s₅.usage = s₃.usage := by rw [Arena.usage, hacct]; rfl
    rw [h₅, hu₃, hu₂, hs₁]
    rfl
  have hkeeps : KeepsChunks (liveChunks (post ++ k.rest)) s.mem s₅.mem := by
    have hkeeps₁ := (h.unsettle ht).mark_keeps true
    have hpost : liveChunks (post₂ ++ k.rest) = liveChunks (post ++ k.rest) := by
      rw [liveChunks_append, hlive₂, liveChunks_setPredFree, ← liveChunks_append]
    have hrest : (liveChunks (post₂ ++ k₃.rest)).Perm (liveChunks (post ++ k.rest)) := by
      rw [← hpost, liveChunks_append, liveChunks_append]
      exact hlive₃.append_left _
    rw [← hmark] at hkeeps₁
    rw [liveChunks_append, liveChunks_setPredFree, ← liveChunks_append, hs₁] at hkeeps₂
    rw [hpost] at hkeeps₃
    exact ((hkeeps₁.trans hkeeps₂).trans hkeeps₃).trans
      ((hw₃.doFree_keeps.trans hkeeps₅).mono fun c hc => hrest.mem_iff.mpr hc)
  refine ⟨_, k₃, t₃ :: post₂, rebin bins₃ (t₃.addr, t₃.size), hfree, ?_, hext₃, ?_, ?_,
    fun hs => (hsort₃ (hsort₂ hs)).rebin _, ?_, ?_⟩
  · split
    · exact hw₅.incrementBin _ _
    · exact hw₅
  · exact quiet_append.mpr ⟨quiet_cons.mpr ⟨fun _ => hp₃, hqp₂⟩, hq₃⟩
  · rw [List.cons_append, List.cons_append, liveChunks_cons_live ht, liveChunks_cons_free hf₃, liveChunks_append,
      liveChunks_append, hlive₂, liveChunks_setPredFree]
    exact (hlive₃.symm.append_left _).cons _
  · split
    · exact husage
    · exact husage
  · split
    · exact hkeeps
    · exact hkeeps

end XviOs.Allocator
