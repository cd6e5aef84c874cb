import XviOs.Fat.ReadTo
import XviOs.Fat.WriteIsolation

namespace XviOs.Fat

/-- The objects that are open on a device. -/
structure Volume (ι : Type) where
  device : BlockDev
  file : ι → ObjectInfo

/-- A call of `write`. -/
structure WriteCall (ι : Type) where
  file : ι
  offset : Nat
  data : List UInt8

namespace Filesystem

open Library.LittleEndian

variable {ι : Type}

/-- The volume after the write, whether it succeeded or not. -/
def writeFile [DecidableEq ι] (fs : Filesystem) (fuel : Nat) (v : Volume ι) (w : WriteCall ι) :
    Except Fault (Volume ι) := do
  let r ← fs.write fuel w.offset w.data v.device (v.file w.file)
  return ⟨r.2.device, Function.update v.file w.file r.2.info⟩

def writeFiles [DecidableEq ι] (fs : Filesystem) (fuel : Nat) : List (WriteCall ι) → Volume ι → Except Fault (Volume ι)
  | [], v => .ok v
  | w :: ws, v => do
      let v ← fs.writeFile fuel v w
      writeFiles fs fuel ws v

variable {fs : Filesystem} {v v' v'' : Volume ι} {cl cl' cl'' : ι → List Nat} {S S' : Set ι} {d d' : BlockDev}
  {info : ObjectInfo} {l : List Nat} {T T' : Set Nat} {w : WriteCall ι} {ws : List (WriteCall ι)}
  {c k m so fuel offset length room : Nat} {i : ι}

/-- The files have no cluster in common; the `i`-th one has the clusters `cl i`. -/
structure Consistent (fs : Filesystem) (v : Volume ι) (cl : ι → List Nat) : Prop where
  type : ∀ i, (v.file i).type = .file
  chain : ∀ i, (v.file i).startCluster = 0 ∧ cl i = [] ∨ fs.Chain v.device (v.file i).startCluster (cl i)
  disjoint : ∀ i j, i ≠ j → List.Disjoint (cl i) (cl j)

/-- The cluster belongs to something. -/
def InUse (fs : Filesystem) (d : BlockDev) (c : Nat) : Prop := fs.IsCluster c ∧ fs.entry d c ≠ 0

/-- Writes to the files of `S` turn `v` into `v'`: they take free clusters only, and what is in use by others
stays what it was. -/
structure Isolated (fs : Filesystem) (v : Volume ι) (cl : ι → List Nat) (S : Set ι) (v' : Volume ι)
    (cl' : ι → List Nat) : Prop where
  reads : v'.device.readFails = v.device.readFails
  writes : v'.device.writeFails = v.device.writeFails
  files : ∀ j, j ∉ S → v'.file j = v.file j ∧ cl' j = cl j
  taken : ∀ i, ∀ c ∈ cl' i, c ∈ cl i ∨ fs.entry v.device c = 0
  kept : ∀ c, fs.InUse v.device c → fs.InUse v'.device c
  entries : ∀ c, fs.InUse v.device c → (∀ i ∈ S, c ∉ cl i) → fs.entry v'.device c = fs.entry v.device c
  sectors : ∀ c, fs.InUse v.device c → (∀ i ∈ S, c ∉ cl i) → ∀ k < fs.sectorsPerCluster,
    v'.device.blocks (fs.clusterToSector c + k) = v.device.blocks (fs.clusterToSector c + k)
  before : ∀ lba < fs.firstCluster, (lba < fs.fatStart ∨ fs.fatStart + fs.fatSize ≤ lba) →
    v'.device.blocks lba = v.device.blocks lba

theorem Consistent.inUse (h : fs.Consistent v cl) (hl : fs.Layout) (hc : c ∈ cl i) : fs.InUse v.device c := by
  obtain ⟨-, hnone⟩ | hchain := h.chain i
  · simp [hnone] at hc
  · exact ⟨hchain.clusters c hc, hchain.entry_ne_zero hl hc⟩

namespace Isolated

theorem refl (fs : Filesystem) (v : Volume ι) (cl : ι → List Nat) : fs.Isolated v cl ∅ v cl where
  reads := rfl
  writes := rfl
  files := fun _ _ => ⟨rfl, rfl⟩
  taken := fun _ _ hc => .inl hc
  kept := fun _ hc => hc
  entries := fun _ _ _ => rfl
  sectors := fun _ _ _ _ _ => rfl
  before := fun _ _ _ => rfl

theorem not_mem (h : fs.Isolated v cl S v' cl') (hc : fs.InUse v.device c) (hn : c ∉ cl i) : c ∉ cl' i :=
  fun hmem => (h.taken i c hmem).elim hn hc.2

theorem reliable (h : fs.Isolated v cl S v' cl') (hr : fs.TableReliable v.device) :
    fs.TableReliable v'.device := by
  intro lba hlo hhi
  rw [h.reads, h.writes]
  exact hr lba hlo hhi

theorem trans (h : fs.Isolated v cl S v' cl') (h' : fs.Isolated v' cl' S' v'' cl'') (hl : fs.Layout)
    (hv : fs.Consistent v'' cl'') : fs.Isolated v cl (S ∪ S') v'' cl'' where
  reads := h'.reads.trans h.reads
  writes := h'.writes.trans h.writes
  files := by
    intro j hj
    obtain ⟨hfile, hcl⟩ := h.files j fun hmem => hj (.inl hmem)
    obtain ⟨hfile', hcl'⟩ := h'.files j fun hmem => hj (.inr hmem)
    exact ⟨hfile'.trans hfile, hcl'.trans hcl⟩
  taken := by
    intro i c hc
    obtain hmem | hfree := h'.taken i c hc
    · exact h.taken i c hmem
    · right
      by_contra hused
      exact (h.kept c ⟨(hv.inUse hl hc).1, hused⟩).2 hfree
  kept := fun c hc => h'.kept c (h.kept c hc)
  entries := by
    intro c hc hn
    have hn' : ∀ i ∈ S', c ∉ cl' i := fun i hi => h.not_mem hc (hn i (.inr hi))
    exact (h'.entries c (h.kept c hc) hn').trans (h.entries c hc fun i hi => hn i (.inl hi))
  sectors := by
    intro c hc hn k hk
    have hn' : ∀ i ∈ S', c ∉ cl' i := fun i hi => h.not_mem hc (hn i (.inr hi))
    exact (h'.sectors c (h.kept c hc) hn' k hk).trans (h.sectors c hc (fun i hi => hn i (.inl hi)) k hk)
  before := fun lba hlba hout => (h'.before lba hlba hout).trans (h.before lba hlba hout)

end Isolated

/-! ## One write -/

theorem Chain.closed {a : Nat} (h : fs.Chain d a l) (hc : c ∈ l) :
    fs.isEndOfChain (fs.entry d c) = true ∨ fs.entry d c ∈ l := by
  obtain ⟨hlinks, -⟩ := h
  induction hlinks with
  | last hstop =>
      obtain rfl := List.mem_singleton.mp hc
      exact .inl hstop
  | @cons a l hnext hrest ih =>
      obtain rfl | hc := List.mem_cons.mp hc
      · obtain ⟨t, rfl⟩ := hrest.head
        exact .inr (by simp)
      · exact (ih hc).imp_right (List.mem_cons_of_mem a)

theorem Consistent.inside (h : fs.Consistent v cl) (i : ι) (n : Nat) :
    fs.Inside {c | c ∈ cl i} ⟨v.device, v.file i, ⟨0, 0⟩, n⟩ := by
  obtain ⟨hstart, hnone⟩ | hchain := h.chain i
  · rw [hnone]
    exact ⟨fun c hc => by simp at hc, fun c hc => by simp at hc, .inl rfl, .inl hstart⟩
  · exact ⟨hchain.clusters, fun c hc => hchain.closed hc, .inl rfl, .inr ⟨cl i, hchain, fun c hc => hc⟩⟩

theorem clusterSector_ne (hl : fs.Layout) {c c' k k' : Nat} (hc : fs.IsCluster c) (hc' : fs.IsCluster c')
    (hne : c ≠ c') (hk : k < fs.sectorsPerCluster) (hk' : k' < fs.sectorsPerCluster) :
    fs.clusterToSector c + k ≠ fs.clusterToSector c' + k' := by
  rw [clusterToSector_eq hl hc, clusterToSector_eq hl hc']
  intro heq
  apply hne
  have hdiv : (c - 2) * fs.sectorsPerCluster + k = (c' - 2) * fs.sectorsPerCluster + k' := by omega
  have hquot := congrArg (· / fs.sectorsPerCluster) hdiv
  simp only [Nat.mul_comm _ fs.sectorsPerCluster, Nat.mul_add_div hl.sectorsPerCluster_pos, Nat.div_eq_of_lt hk,
    Nat.div_eq_of_lt hk'] at hquot
  have := hc.1
  have := hc'.1
  omega

variable [DecidableEq ι]

/-- What `write` does to its own file does not reach what is in use by others. -/
theorem writeFile_isolated (hl : fs.Layout) (hr : fs.TableReliable v.device) (h : fs.Consistent v cl)
    (hdata : w.data.length < 2 ^ 32) (fuel : Nat) :
    ∃ v' cl', fs.writeFile fuel v w = .ok v' ∧ fs.Consistent v' cl' ∧ fs.Isolated v cl {w.file} v' cl' := by
  obtain ⟨r, T', n, hok, hgrows⟩ := write_inside hl hr (h.type w.file) (h.inside w.file) fuel w.offset hdata
  obtain ⟨own, hown, hT'⟩ : ∃ own, (r.2.info.startCluster = 0 ∧ own = [] ∨
      fs.Chain r.2.device r.2.info.startCluster own) ∧ ∀ c ∈ own, c ∈ T' := by
    obtain hzero | ⟨own, hchain, hmem⟩ := hgrows.inside.chain
    · exact ⟨[], .inl ⟨hzero, rfl⟩, by simp⟩
    · exact ⟨own, .inr hchain, hmem⟩
  -- a cluster of another file is not one of those that the write works on
  have hother (c : Nat) (hc : fs.InUse v.device c) (hn : c ∉ cl w.file) : c ∉ T' :=
    fun hmem => hc.2 (hgrows.fresh c hmem hn)
  have hentry (c : Nat) (hc : fs.InUse v.device c) (hn : c ∉ cl w.file) :
      fs.entry r.2.device c = fs.entry v.device c :=
    hgrows.entries c hc.1 (hother c hc hn)
  have htaken (c : Nat) (hc : c ∈ own) : c ∈ cl w.file ∨ fs.entry v.device c = 0 := by
    by_cases hmem : c ∈ cl w.file
    · exact .inl hmem
    · exact .inr (hgrows.fresh c (hT' c hc) hmem)
  refine ⟨⟨r.2.device, Function.update v.file w.file r.2.info⟩, Function.update cl w.file own, ?_, ?_, ?_⟩
  · rw [writeFile, hok]
    rfl
  · have hdisjoint (j : ι) (hj : j ≠ w.file) : List.Disjoint own (cl j) := by
      intro c hc hc'
      obtain hmem | hfree := htaken c hc
      · exact h.disjoint w.file j hj.symm hmem hc'
      · exact (h.inUse hl hc').2 hfree
    refine ⟨fun i => ?_, fun i => ?_, fun i j hij => ?_⟩
    · by_cases hi : i = w.file
      · subst hi
        simpa using hgrows.type.trans (h.type w.file)
      · simpa [hi] using h.type i
    · by_cases hi : i = w.file
      · subst hi
        simpa using hown
      · simp only [Function.update_of_ne hi]
        refine (h.chain i).imp_right fun hchain => hchain.congr fun c hc => hentry c (h.inUse hl hc) ?_
        exact h.disjoint i w.file hi hc
    · by_cases hi : i = w.file
      · subst hi
        simpa [hij.symm] using hdisjoint j hij.symm
      · by_cases hj : j = w.file
        · subst hj
          simpa [hi] using (hdisjoint i hi).symm
        · simpa [hi, hj] using h.disjoint i j hij
  · refine ⟨hgrows.reads, hgrows.writes, fun j hj => ?_, fun i c hc => ?_, fun c hc => ⟨hc.1, ?_⟩, fun c hc hn => ?_,
      fun c hc hn k hk => ?_, fun lba hlba hout => ?_⟩
    · have hne : j ≠ w.file := hj
      simp [hne]
    · by_cases hi : i = w.file
      · subst hi
        rw [Function.update_self] at hc
        exact htaken c hc
      · rw [Function.update_of_ne hi] at hc
        exact .inl hc
    · by_cases hmem : c ∈ T'
      · exact hgrows.inside.entry_ne_zero hmem
      · rw [hgrows.entries c hc.1 hmem]
        exact hc.2
    · exact hentry c hc (hn _ rfl)
    · apply hgrows.blocks
      · right
        have hfirst := clusterToSector_eq hl hc.1
        have hfat := hl.fat_end
        omega
      · intro c' hc' k' hk'
        apply clusterSector_ne hl hc.1 (hgrows.inside.clusters c' hc') _ hk hk'
        rintro rfl
        exact hother c hc (hn _ rfl) hc'
    · apply hgrows.blocks lba hout
      intro c hc k hk
      rw [clusterToSector_eq hl (hgrows.inside.clusters c hc)]
      omega

theorem writeFiles_isolated (hl : fs.Layout) (hr : fs.TableReliable v.device) (h : fs.Consistent v cl)
    (hws : ∀ w ∈ ws, w.data.length < 2 ^ 32) (fuel : Nat) :
    ∃ v' cl', fs.writeFiles fuel ws v = .ok v' ∧ fs.Consistent v' cl' ∧
      fs.Isolated v cl {i | ∃ w ∈ ws, w.file = i} v' cl' := by
  induction ws generalizing v cl with
  | nil =>
      refine ⟨v, cl, rfl, h, ?_⟩
      simpa using Isolated.refl fs v cl
  | cons w ws ih =>
      obtain ⟨hw, hws⟩ := List.forall_mem_cons.mp hws
      obtain ⟨v₁, cl₁, hok, hv₁, hone⟩ := writeFile_isolated hl hr h hw fuel
      obtain ⟨v₂, cl₂, hrest, hv₂, hmany⟩ := ih (hone.reliable hr) hv₁ hws
      refine ⟨v₂, cl₂, ?_, hv₂, ?_⟩
      · rw [writeFiles, hok]
        exact hrest
      · have hset : {i | ∃ w' ∈ w :: ws, w'.file = i} = {w.file} ∪ {i | ∃ w' ∈ ws, w'.file = i} := by
          ext i
          simp [eq_comm]
        rw [hset]
        exact hone.trans hmany hl hv₂

/-! ## Reads between the writes -/

theorem copyBlocks_congr {data data' : Nat → Bytes} (s : ReadState) (h : ∀ j, k ≤ j → j < k + m → data' j = data j) :
    fs.copyBlocks so data' m k s = fs.copyBlocks so data m k s := by
  induction m generalizing k s with
  | zero => rfl
  | succ m ih =>
      rw [copyBlocks, copyBlocks, h k le_rfl (by omega), ih _ fun j hj hlt => h j (by omega) (by omega)]

/-- A read looks at the chain of its file and at the sectors of the chain. -/
theorem readTo_congr (hl : fs.Layout) (hf : fs.IsFile d info l) (hreads : d'.readFails = d.readFails)
    (hentries : ∀ c ∈ l, fs.entry d' c = fs.entry d c)
    (hsectors : ∀ c ∈ l, ∀ k < fs.sectorsPerCluster,
      d'.blocks (fs.clusterToSector c + k) = d.blocks (fs.clusterToSector c + k))
    (hfuel : l.length ≤ fuel) (hoffset : offset < 2 ^ 32) :
    fs.readTo d' fuel info offset length room = fs.readTo d fuel info offset length room := by
  by_cases hroom : room < length
  · rw [readTo_small hroom, readTo_small hroom]
  · have hf' : fs.IsFile d' info l := by
      refine ⟨hf.type, fun hsize => (hf.chain hsize).congr hentries, hf.length, fun c hc => ?_, ?_⟩
      · exact (wordReads_congr hreads).mpr (hf.links c hc)
      · rw [hreads]
        exact hf.sectors
    have hread := readTo_eq hl hf hfuel hoffset (Nat.le_of_not_lt hroom)
    have hread' := readTo_eq hl hf' hfuel hoffset (Nat.le_of_not_lt hroom)
    rw [hread, hread', copyBlocks_congr]
    intro k hlo hhi
    obtain ⟨-, hk⟩ := sectorsRead_inside hl hf hhi hlo
    rw [fileBlock, fileBlock, fileSector, List.getD_eq_getElem?_getD, List.getElem?_eq_getElem hk, Option.getD_some]
    exact hsectors _ (List.getElem_mem hk) _ (Nat.mod_lt _ hl.sectorsPerCluster_pos)

/-- Whatever is written to some of the files, all writes come to an end, no two files come to share a cluster,
whatever else is in use is as it was, and the other files read as before. -/
theorem writes_isolated (hl : fs.Layout) (hr : fs.TableReliable v.device) (h : fs.Consistent v cl)
    (hws : ∀ w ∈ ws, w.data.length < 2 ^ 32) (fuel : Nat) :
    ∃ v' cl', fs.writeFiles fuel ws v = .ok v' ∧ fs.Consistent v' cl' ∧
      fs.Isolated v cl {i | ∃ w ∈ ws, w.file = i} v' cl' ∧
      ∀ j, (∀ w ∈ ws, w.file ≠ j) → fs.IsFile v.device (v.file j) (cl j) → ∀ fuel' offset length room,
        (cl j).length ≤ fuel' → offset < 2 ^ 32 →
          fs.readTo v'.device fuel' (v'.file j) offset length room =
            fs.readTo v.device fuel' (v.file j) offset length room := by
  obtain ⟨v', cl', hok, hv', hall⟩ := writeFiles_isolated hl hr h hws fuel
  refine ⟨v', cl', hok, hv', hall, fun j hj hf fuel' offset length room hfuel hoffset => ?_⟩
  have hmem : j ∉ {i | ∃ w ∈ ws, w.file = i} := fun ⟨w, hw, heq⟩ => hj w hw heq
  have hother (c : Nat) (hc : c ∈ cl j) (i : ι) (hi : i ∈ {i | ∃ w ∈ ws, w.file = i}) : c ∉ cl i := by
    apply h.disjoint j i _ hc
    rintro rfl
    exact hmem hi
  rw [(hall.files j hmem).1]
  apply readTo_congr hl hf hall.reads _ _ hfuel hoffset
  · exact fun c hc => hall.entries c (h.inUse hl hc) (hother c hc)
  · exact fun c hc => hall.sectors c (h.inUse hl hc) (hother c hc)

/-- A file with clusters, and one that has none yet. -/
def linkedVolume : Volume Bool where
  device := linked
  file := fun used => if used then linkedFile else ObjectInfo.ofDirent [] ⟨Vector.replicate 32 0⟩

theorem consistent_linkedVolume :
    (small .fat12).Consistent linkedVolume fun used => if used then [2, 3, 5] else [] where
  type := by decide
  chain := by
    rintro (_ | _)
    · exact .inl ⟨by decide, rfl⟩
    · exact .inr (isFile_linkedFile.chain (by decide))
  disjoint := by
    rintro (_ | _) (_ | _) hne <;> simp at hne ⊢

theorem writes_isolated_linked : ∃ v, (small .fat12).writeFiles 8 [⟨false, 0, [1, 2, 3]⟩] linkedVolume = .ok v ∧
    (small .fat12).readTo v.device 8 (v.file true) 600 424 424 =
      (small .fat12).readTo linked 8 linkedFile 600 424 424 := by
  have hshort : ∀ w ∈ [(⟨false, 0, [1, 2, 3]⟩ : WriteCall Bool)], w.data.length < 2 ^ 32 := by decide
  obtain ⟨v, -, hok, -, -, hread⟩ := writes_isolated (layout_small .fat12) (fun _ _ _ => ⟨rfl, rfl⟩)
    consistent_linkedVolume hshort 8
  exact ⟨v, hok, hread true (by simp) isFile_linkedFile 8 600 424 424 (by decide) (by decide)⟩

end Filesystem

end XviOs.Fat
