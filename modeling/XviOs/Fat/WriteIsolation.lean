import XviOs.Fat.ReadBlocks
import XviOs.Fat.Write

namespace XviOs.Fat.Filesystem

open Library.LittleEndian Library.Bits Library.Chain

variable {fs : Filesystem} {d d' d'' : BlockDev} {info : ObjectInfo} {s s' s'' : WriteState} {cl : List Nat}
  {data : List UInt8} {T T' T'' : Set Nat} {c c' i index lba offset last lastIndex sector fuel n : Nat}

/-! ## Where a store goes -/

/-- The two devices differ in the blocks of `W` at most. -/
structure Confined (W : Set Nat) (d d' : BlockDev) : Prop where
  reads : d'.readFails = d.readFails
  writes : d'.writeFails = d.writeFails
  blocks : ∀ lba, lba ∉ W → d'.blocks lba = d.blocks lba

namespace Confined

variable {W : Set Nat}

theorem refl (W : Set Nat) (d : BlockDev) : Confined W d d := ⟨rfl, rfl, fun _ _ => rfl⟩

theorem trans (h : Confined W d d') (h' : Confined W d' d'') : Confined W d d'' :=
  ⟨h'.reads.trans h.reads, h'.writes.trans h.writes, fun lba hlba => (h'.blocks lba hlba).trans (h.blocks lba hlba)⟩

theorem writeBack (h : lba ∈ W) (d : BlockDev) (data : Bytes) : Confined W d (d.writeBack lba data) :=
  ⟨by simp, by simp, fun _ hx => BlockDev.writeBack_blocks_of_ne d data fun heq => hx (heq ▸ h)⟩

/-- A function that stores bytes in a sector changes that sector only. -/
def Sector (store : Nat → List UInt8 → BlockDev → Bool × BlockDev) : Prop :=
  ∀ lba data d, Confined {lba} d (store lba data d).2

theorem of_sector (store : Nat → List UInt8 → BlockDev → Bool × BlockDev) (h : Sector store) (hlba : lba ∈ W) :
    Confined W d (store lba data d).2 :=
  ⟨(h lba data d).reads, (h lba data d).writes, fun x hx => (h lba data d).blocks x fun heq => hx (heq ▸ hlba)⟩

theorem overwritePartialSector (fs : Filesystem) (offset : Nat) :
    Sector fun lba => fs.overwritePartialSector lba offset := by
  intro lba data d
  change Confined _ _ (if _ then _ else _ : Bool × BlockDev).2
  split
  · exact refl _ d
  · split
    · exact refl _ d
    · exact writeBack (Set.mem_singleton lba) d _

theorem overwriteSector (fs : Filesystem) : Sector fs.overwriteSector := by
  intro lba data d
  rw [Filesystem.overwriteSector]
  split
  · exact refl _ d
  · exact writeBack (Set.mem_singleton lba) d _

theorem appendPartialSector (fs : Filesystem) (offset : Nat) :
    Sector fun lba => fs.appendPartialSector lba offset := by
  intro lba data d
  change Confined _ _ (if _ then _ else if _ then _ else _ : Bool × BlockDev).2
  split
  · exact refl _ d
  · split
    · exact overwritePartialSector fs offset lba data d
    · exact writeBack (Set.mem_singleton lba) d _

theorem storeWholeSectors (fs : Filesystem) {store : Nat → List UInt8 → BlockDev → Bool × BlockDev} (h : Sector store)
    (n : Nat) :
    ∀ i data d, (∀ j, i ≤ j → j < i + n → u32 (lba + j) ∈ W) →
      Confined W d (fs.storeWholeSectors store lba n i data d).device := by
  induction n with
  | zero => exact fun i data d _ => refl W d
  | succ n ih =>
    intro i data d hW
    have hfirst : Confined W d (store (u32 (lba + i)) (data.take fs.sectorSize) d).2 :=
      of_sector store h (hW i le_rfl (by omega))
    rw [Filesystem.storeWholeSectors]
    split
    · exact hfirst.trans (ih (i + 1) _ _ fun j hj hlt => hW j (by omega) (by omega))
    · exact hfirst

/-- A store that ends in the cluster does not leave it. -/
theorem storeInCluster (hl : fs.Layout) {storePartial : Nat → Nat → List UInt8 → BlockDev → Bool × BlockDev}
    {storeWhole : Nat → List UInt8 → BlockDev → Bool × BlockDev}
    (hpiece : ∀ offset, Sector fun lba => storePartial lba offset) (hwhole : Sector storeWhole)
    (hoffset : offset < fs.clusterSize) (hdata : offset + data.length ≤ fs.clusterSize)
    (hsector : sector + fs.sectorsPerCluster ≤ 2 ^ 32)
    (hW : ∀ i < fs.sectorsPerCluster, sector + i ∈ W) (d : BlockDev) :
    Confined W d (fs.storeInCluster storePartial storeWhole sector offset data d).device := by
  have hpos := hl.sectorSize_pos
  have hsplit := Nat.div_add_mod offset fs.sectorSize
  have hmod := Nat.mod_lt offset hpos
  -- a sector that begins before the end of the data
  have hin (j : Nat) (hj : (offset / fs.sectorSize + j) * fs.sectorSize < fs.clusterSize) :
      u32 (u32 (sector + offset / fs.sectorSize) + j) ∈ W := by
    rw [clusterSize, Nat.mul_comm fs.sectorSize] at hj
    have hlt := Nat.lt_of_mul_lt_mul_right hj
    rw [u32_of_lt (x := sector + _) (by omega), u32_of_lt (by omega), Nat.add_assoc]
    exact hW _ hlt
  have hfirst : u32 (sector + offset / fs.sectorSize) ∈ W := by
    have h := hin 0 (by
      rw [Nat.add_zero, Nat.mul_comm]
      omega)
    have hmod : u32 (u32 (sector + offset / fs.sectorSize)) = u32 (sector + offset / fs.sectorSize) := Nat.mod_mod _ _
    rwa [Nat.add_zero, hmod] at h
  rw [Filesystem.storeInCluster]
  simp only
  generalize hskipped : (if offset % fs.sectorSize ≠ 0 then 1 else 0) = skipped
  generalize hpart :
    (if offset % fs.sectorSize ≠ 0 then min data.length (fs.sectorSize - offset % fs.sectorSize) else 0) = part
  have hrest (j : Nat) (hj : j * fs.sectorSize < (data.drop part).length) :
      u32 (u32 (sector + offset / fs.sectorSize) + skipped + j) ∈ W := by
    rw [List.length_drop] at hj
    rw [Nat.add_assoc]
    apply hin
    rw [Nat.add_mul, Nat.add_mul, Nat.mul_comm (offset / fs.sectorSize)]
    split at hskipped
    · rw [if_pos ‹_›] at hpart
      subst hskipped
      omega
    · rw [if_neg ‹_›] at hpart
      subst hskipped
      omega
  have hone : Confined W d (if offset % fs.sectorSize ≠ 0 then
      storePartial (u32 (sector + offset / fs.sectorSize)) (offset % fs.sectorSize) (data.take part) d
        else (true, d)).2 := by
    split
    · exact of_sector (fun lba => storePartial lba _) (hpiece _) hfirst
    · exact refl W d
  generalize (if offset % fs.sectorSize ≠ 0 then
    storePartial (u32 (sector + offset / fs.sectorSize)) (offset % fs.sectorSize) (data.take part) d else (true, d)) =
      first at hone ⊢
  generalize data.drop part = rest at hrest ⊢
  split
  · exact hone
  · have hmany := hone.trans (storeWholeSectors fs hwhole (rest.length / fs.sectorSize) 0 rest _
      fun j _ hj => hrest j (by
        have hle := Nat.mul_le_of_le_div fs.sectorSize (j + 1) rest.length (by omega)
        rw [Nat.add_mul] at hle
        omega))
    split
    · exact hmany
    · split
      · exact hmany
      · apply hmany.trans
        apply of_sector (fun lba => storePartial lba 0) (hpiece 0)
        apply hrest
        have hleft : rest.length - rest.length / fs.sectorSize * fs.sectorSize ≠ 0 := by rwa [← List.length_drop]
        omega

end Confined

/-! ## The clusters of an object during a write -/

/-- The clusters of `T` lead to each other and to ends only, and the object and the hint have none but these. -/
structure Inside (fs : Filesystem) (T : Set Nat) (s : WriteState) : Prop where
  clusters : ∀ c ∈ T, fs.IsCluster c
  links : ∀ c ∈ T, fs.isEndOfChain (fs.entry s.device c) = true ∨ fs.entry s.device c ∈ T
  hint : s.hint.cluster = 0 ∨ s.hint.cluster ∈ T
  chain : s.info.startCluster = 0 ∨ ∃ cl, fs.Chain s.device s.info.startCluster cl ∧ ∀ c ∈ cl, c ∈ T

/-- A part of a write: the clusters of the object become those of `T'`, which were free before if they are new, and
nothing changes but these clusters and their entries in the table. -/
structure Grows (fs : Filesystem) (T : Set Nat) (s : WriteState) (T' : Set Nat) (s' : WriteState) : Prop where
  inside : fs.Inside T' s'
  sub : T ⊆ T'
  fresh : ∀ c ∈ T', c ∉ T → fs.entry s.device c = 0
  reads : s'.device.readFails = s.device.readFails
  writes : s'.device.writeFails = s.device.writeFails
  entries : ∀ c, fs.IsCluster c → c ∉ T' → fs.entry s'.device c = fs.entry s.device c
  blocks : ∀ lba, (lba < fs.fatStart ∨ fs.fatStart + fs.fatSize ≤ lba) →
    (∀ c ∈ T', ∀ i < fs.sectorsPerCluster, lba ≠ fs.clusterToSector c + i) → s'.device.blocks lba = s.device.blocks lba
  type : s'.info.type = s.info.type

namespace Inside

theorem entry_ne_zero (h : fs.Inside T s) (hc : c ∈ T) : fs.entry s.device c ≠ 0 := by
  intro hzero
  obtain hend | hmem := h.links c hc
  · have hfree := endOfChain_not_free hend
    rw [hzero] at hfree
    simp [isFreeClusterMark, freeClusterMark] at hfree
  · have hcluster := (h.clusters _ hmem).1
    omega

theorem grows (h : fs.Inside T s) : fs.Grows T s T s :=
  ⟨h, subset_rfl, fun _ hc hn => absurd hc hn, rfl, rfl, fun _ _ _ => rfl, fun _ _ _ => rfl, rfl⟩

/-- What a write keeps besides the device, the object and the hint does not matter. -/
theorem congr (h : fs.Inside T s) (hdevice : s'.device = s.device) (hinfo : s'.info = s.info)
    (hhint : s'.hint.cluster = 0 ∨ s'.hint.cluster ∈ T) : fs.Grows T s T s' where
  inside := ⟨h.clusters, hdevice ▸ h.links, hhint, by rw [hdevice, hinfo]; exact h.chain⟩
  sub := subset_rfl
  fresh := fun _ hc hn => absurd hc hn
  reads := by rw [hdevice]
  writes := by rw [hdevice]
  entries := fun _ _ _ => by rw [hdevice]
  blocks := fun _ _ _ => by rw [hdevice]
  type := by rw [hinfo]

end Inside

namespace Grows

theorem trans (h : fs.Grows T s T' s') (h' : fs.Grows T' s' T'' s'') : fs.Grows T s T'' s'' where
  inside := h'.inside
  sub := h.sub.trans h'.sub
  fresh := by
    intro c hc hn
    by_cases hmem : c ∈ T'
    · exact h.fresh c hmem hn
    · rw [← h.entries c (h'.inside.clusters c hc) hmem]
      exact h'.fresh c hc hmem
  reads := h'.reads.trans h.reads
  writes := h'.writes.trans h.writes
  entries := fun c hc hn => (h'.entries c hc hn).trans (h.entries c hc fun hmem => hn (h'.sub hmem))
  blocks := fun lba hout hlba => (h'.blocks lba hout hlba).trans
    (h.blocks lba hout fun c hc => hlba c (h'.sub hc))
  type := h'.type.trans h.type

theorem reliable (h : fs.Grows T s T' s') (hr : fs.TableReliable s.device) : fs.TableReliable s'.device := by
  intro lba hlo hhi
  rw [h.reads, h.writes]
  exact hr lba hlo hhi

end Grows

/-- Entries do not change when sectors of clusters do. -/
theorem entry_confined (hl : fs.Layout) {W : Set Nat} (hW : ∀ lba ∈ W, fs.firstCluster ≤ lba) (h : Confined W d d')
    (hc : fs.IsCluster c) : fs.entry d' c = fs.entry d c :=
  entry_congr hl (fun lba hlt => h.blocks lba fun hmem => absurd hlt (Nat.not_lt.mpr (hW lba hmem))) hc.2

/-- The sectors of a cluster. -/
def sectorsOf (fs : Filesystem) (c : Nat) : Set Nat :=
  {lba | ∃ i < fs.sectorsPerCluster, lba = fs.clusterToSector c + i}

/-- Storing data in a cluster of the object. -/
theorem Inside.store (h : fs.Inside T s) (hl : fs.Layout) (hc : c ∈ T) (hd : Confined (fs.sectorsOf c) s.device d)
    (validLength : Nat) : fs.Grows T s T { s with device := d, validLength := validLength } := by
  have hentry (x : Nat) (hx : fs.IsCluster x) : fs.entry d x = fs.entry s.device x := by
    refine entry_confined hl ?_ hd hx
    rintro lba ⟨i, -, rfl⟩
    rw [clusterToSector_eq hl (h.clusters c hc), Nat.add_assoc]
    exact Nat.le_add_right _ _
  refine ⟨⟨h.clusters, ?_, h.hint, ?_⟩, subset_rfl, fun _ hx hn => absurd hx hn, hd.reads, hd.writes,
    fun x hx _ => hentry x hx, ?_, rfl⟩
  · intro x hx
    rw [hentry x (h.clusters x hx)]
    exact h.links x hx
  · obtain hzero | ⟨cl, hchain, hcl⟩ := h.chain
    · exact .inl hzero
    · exact .inr ⟨cl, hchain.congr fun x hx => hentry x (hchain.clusters x hx), hcl⟩
  · intro lba _ hlba
    apply hd.blocks
    rintro ⟨i, hi, rfl⟩
    exact hlba c hc i hi rfl

theorem storeInCluster_cluster (hl : fs.Layout) (hc : fs.IsCluster c)
    {storePartial : Nat → Nat → List UInt8 → BlockDev → Bool × BlockDev}
    {storeWhole : Nat → List UInt8 → BlockDev → Bool × BlockDev}
    (hpiece : ∀ offset, Confined.Sector fun lba => storePartial lba offset) (hwhole : Confined.Sector storeWhole)
    (hdata : offset % fs.clusterSize + data.length ≤ fs.clusterSize) (d : BlockDev) :
    Confined (fs.sectorsOf c) d
      (fs.storeInCluster storePartial storeWhole (fs.clusterToSector c) (offset % fs.clusterSize) data d).device := by
  apply Confined.storeInCluster hl hpiece hwhole (Nat.mod_lt _ hl.clusterSize_le.1) hdata
  · have hlt := clusterSector_lt hl hc (Nat.sub_lt hl.sectorsPerCluster_pos Nat.one_pos)
    have hpos := hl.sectorsPerCluster_pos
    omega
  · exact fun i hi => ⟨i, hi, rfl⟩

/-! ## Looking up a cluster -/

theorem TableReliable.readable (hr : fs.TableReliable d) (hl : fs.Layout) (hc : fs.IsCluster c) : fs.WordReads d c :=
  hr.wordReads hl hc.2

/-- A walk from a cluster of the object comes to one of its clusters, or to none. -/
theorem nthChainEntry_inside (hl : fs.Layout) (hr : fs.TableReliable d) (hT : ∀ c ∈ T, fs.IsCluster c)
    (hlinks : ∀ c ∈ T, fs.isEndOfChain (fs.entry d c) = true ∨ fs.entry d c ∈ T) (hc : c ∈ T) (n : Nat) :
    ∃ x, fs.nthChainEntry d c n = .ok x ∧ (x = 0 ∨ x ∈ T) := by
  have hwalk (k : Nat) : ∀ i c, c ∈ T → ∃ x, fs.readClusterChain (fun _ => d)
      (fun index value entry => .ok (if index = i + k then (false, value) else (true, entry))) (k + 1) i c 0 = .ok x ∧
        (x = 0 ∨ x ∈ T) := by
    induction k with
    | zero =>
      intro i c hc
      rw [readClusterChain, getFATEntry_ok hl (hl.cluster_lt (hT c hc).2) (hr.readable hl (hT c hc))]
      simp only [bind, Except.bind, pure, Except.pure, Nat.add_zero, if_true, Bool.not_false]
      split
      · exact ⟨0, rfl, .inl rfl⟩
      · split
        · exact ⟨0, rfl, .inl rfl⟩
        · exact ⟨c, rfl, .inr hc⟩
    | succ k ih =>
      intro i c hc
      have hne : ¬ i = i + (k + 1) := by omega
      rw [readClusterChain, getFATEntry_ok hl (hl.cluster_lt (hT c hc).2) (hr.readable hl (hT c hc))]
      simp only [bind, Except.bind, pure, Except.pure, if_neg hne, Bool.not_true, Bool.false_eq_true, if_false]
      split
      · exact ⟨0, rfl, .inl rfl⟩
      · split
        · exact ⟨0, rfl, .inl rfl⟩
        · split
          · exact ⟨0, rfl, .inl rfl⟩
          · next hend =>
              have hrest := ih (i + 1) _ ((hlinks c hc).resolve_left hend)
              rwa [Nat.add_right_comm i 1 k] at hrest
  have hstart := hwalk n 0 c hc
  rwa [Nat.zero_add] at hstart

theorem clusterLookup_inside (hl : fs.Layout) (hr : fs.TableReliable s.device) (h : fs.Inside T s) (index : Nat) :
    ∃ c s', fs.clusterLookup index s = .ok (c, s') ∧ (c = 0 ∨ c ∈ T) ∧ fs.Grows T s T s' := by
  have hhint : (if index < s.hint.index ∨ s.hint.cluster = 0 then (⟨0, 0⟩ : ClusterHint) else s.hint).cluster = 0 ∨
      (if index < s.hint.index ∨ s.hint.cluster = 0 then (⟨0, 0⟩ : ClusterHint) else s.hint).cluster ∈ T := by
    split
    · exact .inl rfl
    · exact h.hint
  rw [clusterLookup]
  generalize (if index < s.hint.index ∨ s.hint.cluster = 0 then (⟨0, 0⟩ : ClusterHint) else s.hint) = hint at hhint ⊢
  have hstart : (if hint.cluster ≠ 0 then hint.cluster else s.info.startCluster) = 0 ∨
      (if hint.cluster ≠ 0 then hint.cluster else s.info.startCluster) ∈ T := by
    split
    · exact hhint
    · obtain hzero | ⟨cl, hchain, hcl⟩ := h.chain
      · exact .inl hzero
      · obtain ⟨t, rfl⟩ := hchain.links.head
        exact .inr (hcl _ (List.mem_cons_self ..))
  generalize (if hint.cluster ≠ 0 then hint.cluster else s.info.startCluster) = start at hstart ⊢
  split
  · exact ⟨0, _, rfl, .inl rfl, h.congr rfl rfl hhint⟩
  · next hne =>
      obtain ⟨x, hx, hmem⟩ := nthChainEntry_inside hl hr h.clusters h.links (hstart.resolve_left hne)
        (index - hint.index)
      rw [hx]
      exact ⟨x, _, rfl, hmem, h.congr rfl rfl hmem⟩

theorem overwriteCluster_inside (hl : fs.Layout) (hr : fs.TableReliable s.device) (h : fs.Inside T s) (offset : Nat)
    (data : List UInt8) : ∃ r, fs.overwriteCluster offset data s = .ok r ∧ fs.Grows T s T r.2 := by
  rw [overwriteCluster]
  simp only
  split
  · exact ⟨_, rfl, h.grows⟩
  · next hfits =>
      obtain ⟨c, s', hlookup, hc, hgrows⟩ := clusterLookup_inside hl hr h (offset / fs.clusterSize)
      rw [hlookup]
      simp only [bind, Except.bind, pure, Except.pure]
      split
      · exact ⟨_, rfl, hgrows⟩
      · next hne =>
          have hmem := hc.resolve_left hne
          refine ⟨_, rfl, hgrows.trans (hgrows.inside.store hl hmem ?_ _)⟩
          exact storeInCluster_cluster hl (hgrows.inside.clusters c hmem) (Confined.overwritePartialSector fs)
            (Confined.overwriteSector fs) (Nat.le_of_not_lt hfits) _

theorem appendCluster_inside (hl : fs.Layout) (hr : fs.TableReliable s.device) (h : fs.Inside T s) (offset : Nat)
    (data : List UInt8) : ∃ r, fs.appendCluster offset data s = .ok r ∧ fs.Grows T s T r.2 := by
  rw [appendCluster]
  simp only
  split
  · exact ⟨_, rfl, h.grows⟩
  · split
    · exact ⟨_, rfl, h.grows⟩
    · next hfits =>
        obtain ⟨c, s', hlookup, hc, hgrows⟩ := clusterLookup_inside hl hr h (offset / fs.clusterSize)
        rw [hlookup]
        simp only [bind, Except.bind, pure, Except.pure]
        split
        · exact ⟨_, rfl, hgrows⟩
        · next hne =>
            have hmem := hc.resolve_left hne
            refine ⟨_, rfl, hgrows.trans (hgrows.inside.store hl hmem ?_ _)⟩
            exact storeInCluster_cluster hl (hgrows.inside.clusters c hmem) (Confined.appendPartialSector fs)
              (Confined.overwriteSector fs) (Nat.le_of_not_lt hfits) _

/-! ## Extending the chain -/

theorem byte_setField16 (e : Dirent) (i j k : Fin 32) (v : Nat) :
    (e.setField16 i j v).byte k =
      if j = k then UInt8.ofNat (v / 256) else if i = k then UInt8.ofNat v else e.byte k := by
  change ((e.bytes.set i (UInt8.ofNat v)).set j (UInt8.ofNat (v / 256)))[(k : Nat)] =
    if j = k then UInt8.ofNat (v / 256) else if i = k then UInt8.ofNat v else e.bytes[(k : Nat)]
  simp only [Vector.getElem_set, Fin.ext_iff]

theorem startCluster_setCluster (info : ObjectInfo) (hc : c < 2 ^ 32) : (info.setCluster c).startCluster = c := by
  have hhigh : ((info.dirent.setCluster c).clusterHigh : Nat) = c / 65536 := by
    simp only [Dirent.clusterHigh, Dirent.setCluster, Dirent.field16, byte_setField16]
    simp
    omega
  have hlow : ((info.dirent.setCluster c).clusterLow : Nat) = c % 65536 := by
    simp only [Dirent.clusterLow, Dirent.setCluster, Dirent.field16, byte_setField16]
    simp
    omega
  change (info.dirent.setCluster c).getStartCluster = c
  rw [Dirent.getStartCluster, hhigh, hlow]
  omega

theorem startCluster_setSize (info : ObjectInfo) (size : Nat) :
    (info.setSize size).startCluster = info.startCluster := by
  change (info.dirent.setSize size).getStartCluster = info.dirent.getStartCluster
  simp [Dirent.getStartCluster, Dirent.clusterHigh, Dirent.clusterLow, Dirent.setSize, Dirent.field16, byte_setField16]

/-- A chain whose cluster `last` is linked to a new one ends there. -/
theorem Chain.relink {a : Nat} (h : fs.Chain d a cl) (hentry : ∀ x ∈ cl, x ≠ last → fs.entry d' x = fs.entry d x)
    (hlast : fs.entry d' last = c) (hc : fs.isEndOfChain c = false) (hnew : fs.Chain d' c [c]) :
    ∃ cl', fs.Chain d' a cl' ∧ ∀ x ∈ cl', x ∈ cl ∨ x = c := by
  obtain ⟨hlinks, hclusters⟩ := h
  induction hlinks with
  | @last a hstop =>
    by_cases ha : a = last
    · subst ha
      refine ⟨[a, c], ⟨.cons (by simp [hlast, hc]) (hlast ▸ hnew.links), ?_⟩, by simp⟩
      simpa using ⟨hclusters a (by simp), hnew.clusters c (by simp)⟩
    · refine ⟨[a], ⟨.last ?_, hclusters⟩, by simp⟩
      rwa [hentry a (by simp) ha]
  | @cons a l hstop hrest ih =>
    obtain ⟨ha, hclusters'⟩ := List.forall_mem_cons.mp hclusters
    by_cases heq : a = last
    · subst heq
      refine ⟨[a, c], ⟨.cons (by simp [hlast, hc]) (hlast ▸ hnew.links), ?_⟩, by simp⟩
      simpa using ⟨ha, hnew.clusters c (by simp)⟩
    · have hnext := hentry a (by simp) heq
      obtain ⟨cl', hchain, hcl'⟩ := ih (fun x hx => hentry x (List.mem_cons_of_mem _ hx)) hclusters'
      refine ⟨a :: cl', ⟨.cons (by rwa [hnext]) (hnext ▸ hchain.links), ?_⟩, ?_⟩
      · exact List.forall_mem_cons.mpr ⟨ha, hchain.clusters⟩
      · intro x hx
        obtain rfl | hx := List.mem_cons.mp hx
        · exact .inl (List.mem_cons_self ..)
        · exact (hcl' x hx).imp_left (List.mem_cons_of_mem _)

theorem chain_singleton (hc : fs.IsCluster c) (hend : fs.isEndOfChain (fs.entry d c) = true) : fs.Chain d c [c] :=
  ⟨.last hend, fun _ hx => (List.mem_singleton.mp hx) ▸ hc⟩

/-- A free cluster that is marked as an end joins the clusters of the object. -/
theorem Inside.extend (h : fs.Inside T s) (hc : fs.IsCluster c) (hfree : fs.entry s.device c = 0)
    (hframe : fs.TableFrame s.device d) (hend : fs.isEndOfChain (fs.entry d c) = true)
    (hlinks : ∀ x ∈ T, fs.entry d x = fs.entry s.device x ∨ fs.entry d x = c)
    (hother : ∀ x, fs.IsCluster x → x ∉ insert c T → fs.entry d x = fs.entry s.device x)
    (htype : info.type = s.info.type)
    (hchain : info.startCluster = 0 ∨ ∃ cl, fs.Chain d info.startCluster cl ∧ ∀ x ∈ cl, x ∈ insert c T) :
    fs.Grows T s (insert c T) { s with device := d, info := info } where
  inside := by
    refine ⟨?_, ?_, h.hint.imp_right (Set.mem_insert_of_mem c), hchain⟩
    · rintro x (rfl | hx)
      · exact hc
      · exact h.clusters x hx
    · rintro x (rfl | hx)
      · exact .inl hend
      · obtain hsame | hnew := hlinks x hx
        · change fs.isEndOfChain (fs.entry d x) = true ∨ fs.entry d x ∈ insert c T
          rw [hsame]
          exact (h.links x hx).imp_right (Set.mem_insert_of_mem c)
        · exact .inr (.inl hnew)
  sub := Set.subset_insert c T
  fresh := by
    rintro x (rfl | hx) hn
    · exact hfree
    · exact absurd hx hn
  reads := hframe.reads
  writes := hframe.writes
  entries := hother
  blocks := fun lba hout _ => hframe.blocks lba hout
  type := htype

/-- The new cluster is linked to from `last`, or from the object, or from nowhere. -/
theorem extendChain_inside (hl : fs.Layout) (hr : fs.TableReliable s.device) (h : fs.Inside T s) (lastIndex : Nat)
    (hlast : last = 0 ∨ last ∈ T) :
    ∃ c s', fs.extendChain lastIndex last s = .ok (c, s') ∧
      (c = 0 ∧ fs.Grows T s T s' ∨ fs.Grows T s (insert c T) s') := by
  obtain ⟨⟨c, d₁⟩, hfind⟩ := findFreeCluster_reliable hl hr true
  rw [extendChain, hfind]
  simp only [bind, Except.bind, pure, Except.pure]
  rcases findFreeCluster_cases hl hfind with ⟨rfl, rfl⟩ | ⟨hle, hlt, hfree, hmark⟩
  · exact ⟨0, _, rfl, .inl ⟨rfl, h.grows⟩⟩
  · have hc : fs.IsCluster c := ⟨hle, by omega⟩
    have hnot : c ∉ T := fun hmem => h.entry_ne_zero hmem hfree
    obtain ⟨d₁', hmark', hset⟩ := writeClusterChainLink_reliable hl hc.2 hr (endOfChain &&& fs.clusterMask)
    rw [if_pos rfl, hmark'] at hmark
    obtain rfl := Except.ok.inj hmark
    have hend : fs.isEndOfChain (fs.entry d₁' c) = true := by
      rw [hset.entry_self, Nat.and_assoc, Nat.and_self]
      exact isEndOfChain_endOfChain fs
    have hsame (x : Nat) (hx : x ≠ c) : fs.entry d₁' x = fs.entry s.device x := hset.entry_of_ne hx
    have hold (x : Nat) (hx : x ∈ T) : fs.entry d₁' x = fs.entry s.device x := hsame x fun heq => hnot (heq ▸ hx)
    rw [if_neg (show c ≠ 0 by omega)]
    by_cases hzero : last = 0
    · subst hzero
      refine ⟨c, _, rfl, .inr ?_⟩
      apply h.extend hc hfree hset.frame hend (fun x hx => .inl (hold x hx))
      · exact fun x _ hn => hsame x fun heq => hn (.inl heq)
      · split <;> rfl
      · split
        · -- the chain of the object is the new cluster
          right
          rw [startCluster_setCluster _ ((hl.cluster_lt hc.2).trans (by decide))]
          exact ⟨[c], chain_singleton hc hend, by simp⟩
        · obtain hnone | ⟨cl, hchain, hcl⟩ := h.chain
          · exact .inl hnone
          · exact .inr ⟨cl, hchain.congr fun x hx => hold x (hcl x hx), fun x hx => .inr (hcl x hx)⟩
    · have hmem := hlast.resolve_left hzero
      have hne : c ≠ last := fun heq => hnot (heq ▸ hmem)
      obtain ⟨d₂, hlink, hset₂⟩ := writeClusterChainLink_reliable hl (h.clusters last hmem).2 (hr.frame hset.frame) c
      have hnext : fs.entry d₂ last = c := by rw [hset₂.entry_self, hc.and_mask hl]
      have hend₂ : fs.isEndOfChain (fs.entry d₂ c) = true := by rwa [hset₂.entry_of_ne hne]
      have hold₂ (x : Nat) (hx : x ∈ T) (hn : x ≠ last) : fs.entry d₂ x = fs.entry s.device x :=
        (hset₂.entry_of_ne hn).trans (hold x hx)
      rw [if_pos hzero, hlink, if_neg fun hand => hzero hand.2]
      refine ⟨c, _, rfl, .inr ?_⟩
      apply h.extend hc hfree (hset.frame.trans hset₂.frame) hend₂
      · intro x hx
        by_cases heq : x = last
        · exact .inr (heq ▸ hnext)
        · exact .inl (hold₂ x hx heq)
      · intro x _ hn
        have hnew : x ≠ last := fun heq => hn (.inr (by rwa [heq]))
        rw [hset₂.entry_of_ne hnew]
        exact hsame x fun heq => hn (.inl heq)
      · rfl
      · obtain hnone | ⟨cl, hchain, hcl⟩ := h.chain
        · exact .inl hnone
        · obtain ⟨cl', hchain', hcl'⟩ := hchain.relink (fun x hx => hold₂ x (hcl x hx)) hnext (hc.not_endOfChain hl)
            (chain_singleton hc hend₂)
          refine .inr ⟨cl', hchain', fun x hx => ?_⟩
          exact (hcl' x hx).symm.imp_right (hcl x)

/-! ## The loops -/

theorem overwriteClustersFrom_inside (hl : fs.Layout) (fuel offset clusterOffset index : Nat)
    (hoffset : clusterOffset < fs.clusterSize) (hfuel : data.length < fuel) (hdata : data.length < 2 ^ 32)
    (hr : fs.TableReliable s.device) (h : fs.Inside T s) :
    ∃ r, fs.overwriteClustersFrom fuel offset clusterOffset index data s = .ok r ∧ fs.Grows T s T r.2 := by
  induction fuel generalizing offset clusterOffset index data s with
  | zero => omega
  | succ fuel ih =>
      rw [overwriteClustersFrom]
      split
      · exact ⟨_, rfl, h.grows⟩
      · obtain ⟨c, s', hlookup, -, hgrows⟩ := clusterLookup_inside hl hr h index
        rw [hlookup]
        simp only [bind, Except.bind, pure, Except.pure]
        split
        · exact ⟨_, rfl, hgrows⟩
        · have hr' := hgrows.reliable hr
          have hlength : 0 < min (fs.clusterSize - clusterOffset) (u32 data.length) := by
            rw [u32_of_lt hdata]
            omega
          generalize min (fs.clusterSize - clusterOffset) (u32 data.length) = length at hlength ⊢
          obtain ⟨w, hw, hgrows'⟩ := overwriteCluster_inside hl hr' hgrows.inside offset (data.take length)
          rw [hw]
          have hdrop : (data.drop length).length = data.length - length := List.length_drop
          have hfuel' : (data.drop length).length < fuel := by omega
          obtain ⟨r, hrest, hgrows''⟩ := ih (u32 (offset + length)) 0 (index + 1) hl.clusterSize_le.1 hfuel' (by omega)
            (hgrows'.reliable hr') hgrows'.inside
          exact ⟨r, hrest, (hgrows.trans hgrows').trans hgrows''⟩

theorem appendClustersFrom_inside (hl : fs.Layout) (fuel offset clusterOffset index lastIndex : Nat)
    (hoffset : clusterOffset < fs.clusterSize) (hfuel : data.length < fuel) (hdata : data.length < 2 ^ 32)
    (hr : fs.TableReliable s.device) (h : fs.Inside T s) (hlast : last = 0 ∨ last ∈ T) :
    ∃ r T', fs.appendClustersFrom fuel offset clusterOffset index lastIndex last data s = .ok r ∧
      fs.Grows T s T' r.2 := by
  induction fuel generalizing offset clusterOffset index lastIndex last data s T with
  | zero => omega
  | succ fuel ih =>
      rw [appendClustersFrom]
      by_cases hnone : data.length = 0
      · rw [if_pos hnone]
        exact ⟨_, T, rfl, h.grows⟩
      · -- what comes after the extension of the chain
        have hrest (c next : Nat) (s' : WriteState) (T' : Set Nat) (hc : c = 0 ∨ c ∈ T')
            (hgrows : fs.Grows T s T' s') :
            ∃ r T'', (if c = 0 then Except.ok (false, s')
              else do
                let w ← fs.appendCluster offset (data.take (min (fs.clusterSize - clusterOffset) (u32 data.length))) s'
                fs.appendClustersFrom fuel (u32 (offset + min (fs.clusterSize - clusterOffset) (u32 data.length))) 0
                  (index + 1) next c (data.drop (min (fs.clusterSize - clusterOffset) (u32 data.length))) w.2) =
                .ok r ∧ fs.Grows T s T'' r.2 := by
          split
          · exact ⟨_, T', rfl, hgrows⟩
          · have hr' := hgrows.reliable hr
            have hlength : 0 < min (fs.clusterSize - clusterOffset) (u32 data.length) := by
              rw [u32_of_lt hdata]
              omega
            generalize min (fs.clusterSize - clusterOffset) (u32 data.length) = length at hlength ⊢
            obtain ⟨w, hw, hgrows'⟩ := appendCluster_inside hl hr' hgrows.inside offset (data.take length)
            rw [hw]
            have hdrop : (data.drop length).length = data.length - length := List.length_drop
            have hfuel' : (data.drop length).length < fuel := by omega
            obtain ⟨r, T'', hok, hgrows''⟩ := ih (u32 (offset + length)) 0 (index + 1) next hl.clusterSize_le.1 hfuel'
              (by omega) (hgrows'.reliable hr') hgrows'.inside hc
            exact ⟨r, T'', hok, (hgrows.trans hgrows').trans hgrows''⟩
        rw [if_neg hnone]
        simp only
        split
        · obtain ⟨c, s', hok, hnew⟩ := extendChain_inside hl hr h lastIndex hlast
          rw [hok]
          obtain ⟨rfl, hsame⟩ | hnew := hnew
          · exact hrest 0 (lastIndex + 1) s' T (.inl rfl) hsame
          · exact hrest c (lastIndex + 1) s' (insert c T) (.inr (Set.mem_insert c T)) hnew
        · exact hrest last lastIndex s T hlast h.grows

theorem overwriteClusters_inside (hl : fs.Layout) (hr : fs.TableReliable s.device) (h : fs.Inside T s) (offset : Nat)
    (hdata : data.length < 2 ^ 32) : ∃ r, fs.overwriteClusters offset data s = .ok r ∧ fs.Grows T s T r.2 := by
  rw [overwriteClusters]
  split
  · exact ⟨_, rfl, h.grows⟩
  · exact overwriteClustersFrom_inside hl _ _ _ _ (Nat.mod_lt _ hl.clusterSize_le.1) (Nat.lt_succ_self _) hdata hr h

theorem appendClusters_inside (hl : fs.Layout) (hr : fs.TableReliable s.device) (h : fs.Inside T s) (offset : Nat)
    (hdata : data.length < 2 ^ 32) : ∃ r T', fs.appendClusters offset data s = .ok r ∧ fs.Grows T s T' r.2 := by
  rw [appendClusters]
  generalize hcount : s.validLength / fs.clusterSize = count
  -- what comes after the lookup of the last cluster
  have hrest (c : Nat) (s' : WriteState) (hc : c = 0 ∨ c ∈ T) (hgrows : fs.Grows T s T s') :
      ∃ r T', (if offset / fs.clusterSize < count - 1 then Except.ok (false, s')
        else if offset > s'.validLength then .ok (false, s')
        else fs.appendClustersFrom (data.length + 1) offset (offset % fs.clusterSize) (offset / fs.clusterSize)
          (count - 1) c data s') = .ok r ∧ fs.Grows T s T' r.2 := by
    split
    · exact ⟨_, T, rfl, hgrows⟩
    · split
      · exact ⟨_, T, rfl, hgrows⟩
      · obtain ⟨r, T', hok, hgrows'⟩ := appendClustersFrom_inside hl (data.length + 1) offset (offset % fs.clusterSize)
          (offset / fs.clusterSize) (count - 1) (Nat.mod_lt _ hl.clusterSize_le.1) (Nat.lt_succ_self _) hdata
          (hgrows.reliable hr) hgrows.inside hc
        exact ⟨r, T', hok, hgrows.trans hgrows'⟩
  simp only
  split
  · obtain ⟨c, s', hok, hc, hgrows⟩ := clusterLookup_inside hl hr h (count - 1)
    rw [hok]
    exact hrest c s' hc hgrows
  · exact hrest 0 s (.inl rfl) h.grows

/-- A write to a file. -/
theorem write_inside (hl : fs.Layout) (hr : fs.TableReliable d) (htype : info.type = .file)
    (h : ∀ n, fs.Inside T ⟨d, info, ⟨0, 0⟩, n⟩) (fuel offset : Nat) (hdata : data.length < 2 ^ 32) :
    ∃ r T' n, fs.write fuel offset data d info = .ok r ∧ fs.Grows T ⟨d, info, ⟨0, 0⟩, n⟩ T' r.2 := by
  have hcount : info.sectorCount fs d fuel = .ok (u32 (info.dirent.size + (fs.sectorSize - 1)) / fs.sectorSize) := by
    rw [ObjectInfo.sectorCount, ObjectInfo.size, if_pos (.inl htype)]
    rfl
  rw [write, hcount]
  simp only [bind, Except.bind]
  generalize u32 (fs.sectorSize * (u32 (info.dirent.size + (fs.sectorSize - 1)) / fs.sectorSize)) = n
  generalize n &&& alignMask 32 fs.clusterSize = boundary
  generalize (if offset < boundary then u32 (min (u32 (offset + data.length)) boundary + (2 ^ 32 - offset)) else 0) =
    length
  -- what comes after the part that is appended
  have hlast (ok : Bool) (s : WriteState) (T' : Set Nat) (hgrows : fs.Grows T ⟨d, info, ⟨0, 0⟩, n⟩ T' s) :
      ∃ r T', (if !ok then Except.ok (false, s)
        else .ok (true, { s with
          info := if s.info.type = .file then s.info.setSize (max (u32 (offset + data.length)) s.info.dirent.size)
            else s.info }) : Except Fault (Bool × WriteState)) = .ok r ∧
        fs.Grows T ⟨d, info, ⟨0, 0⟩, n⟩ T' r.2 := by
    split
    · exact ⟨_, T', rfl, hgrows⟩
    · refine ⟨_, T', rfl, ?_⟩
      rw [if_pos (hgrows.type.trans htype)]
      refine ⟨⟨hgrows.inside.clusters, hgrows.inside.links, hgrows.inside.hint, ?_⟩, hgrows.sub, hgrows.fresh,
        hgrows.reads, hgrows.writes, hgrows.entries, hgrows.blocks, hgrows.type⟩
      rw [startCluster_setSize]
      exact hgrows.inside.chain
  -- what comes after the part that is overwritten
  have hrest (ok : Bool) (s : WriteState) (hgrows : fs.Grows T ⟨d, info, ⟨0, 0⟩, n⟩ T s) :
      ∃ r T', (if !ok then Except.ok (false, s)
        else do
          let r ← if offset + data.length > boundary then fs.appendClusters (max offset boundary) (data.drop length) s
            else pure (true, s)
          if !r.1 then return (false, r.2)
          else return (true, { r.2 with
            info := if r.2.info.type = .file then
                r.2.info.setSize (max (u32 (offset + data.length)) r.2.info.dirent.size) else r.2.info })) =
          .ok r ∧ fs.Grows T ⟨d, info, ⟨0, 0⟩, n⟩ T' r.2 := by
    split
    · exact ⟨_, T, rfl, hgrows⟩
    · simp only
      split
      · have hdrop : (data.drop length).length = data.length - length := List.length_drop
        have hdata' : (data.drop length).length < 2 ^ 32 := by omega
        obtain ⟨⟨ok', s'⟩, T', happend, hgrows'⟩ := appendClusters_inside hl (hgrows.reliable hr) hgrows.inside
          (max offset boundary) hdata'
        rw [happend]
        exact hlast ok' s' T' (hgrows.trans hgrows')
      · exact hlast true s T hgrows
  split
  · have htake : (data.take length).length ≤ data.length := List.length_take_le' length data
    obtain ⟨⟨ok, s⟩, hoverwrite, hgrows⟩ := overwriteClusters_inside hl hr (h n) offset (htake.trans_lt hdata)
    rw [hoverwrite]
    obtain ⟨r, T', hok, hall⟩ := hrest ok s hgrows
    exact ⟨r, T', n, hok, hall⟩
  · obtain ⟨r, T', hok, hall⟩ := hrest true _ (h n).grows
    exact ⟨r, T', n, hok, hall⟩

end XviOs.Fat.Filesystem
