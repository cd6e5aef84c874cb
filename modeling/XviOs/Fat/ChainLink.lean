import XviOs.Fat.FatTable

namespace XviOs.Fat.Filesystem

open Library.BitField

variable {fs : Filesystem} {d d' d'' : BlockDev} {c c' next x : Nat}

/-- The first copy of the table can be read and written. -/
def TableReliable (fs : Filesystem) (d : BlockDev) : Prop := d.Reliable fs.fatStart (fs.fatStart + fs.fatSize)

/-- The two devices differ in the first copy of the table at most. -/
structure TableFrame (fs : Filesystem) (d d' : BlockDev) : Prop where
  reads : d'.readFails = d.readFails
  writes : d'.writeFails = d.writeFails
  blocks : ∀ lba, lba < fs.fatStart ∨ fs.fatStart + fs.fatSize ≤ lba → d'.blocks lba = d.blocks lba

theorem TableFrame.refl (fs : Filesystem) (d : BlockDev) : fs.TableFrame d d := ⟨rfl, rfl, fun _ _ => rfl⟩

theorem TableFrame.trans (h : fs.TableFrame d d') (h' : fs.TableFrame d' d'') : fs.TableFrame d d'' :=
  ⟨h'.reads.trans h.reads, h'.writes.trans h.writes, fun lba hlba => (h'.blocks lba hlba).trans (h.blocks lba hlba)⟩

theorem TableReliable.frame (h : fs.TableReliable d) (hf : fs.TableFrame d d') : fs.TableReliable d' := by
  intro lba hlo hhi
  rw [hf.reads, hf.writes]
  exact h lba hlo hhi

theorem TableReliable.wordReads (h : fs.TableReliable d) (hl : fs.Layout) (hc : c < fs.clusterCount + 2) :
    fs.WordReads d c := by
  obtain ⟨hs, hs'⟩ := hl.wordSector_lt hc
  exact ⟨(h _ (Nat.le_add_right _ _) hs).1, (h _ (Nat.le_add_right _ _) hs').1⟩

/-- A link that was written replaces one entry of the table. -/
structure LinkSet (fs : Filesystem) (d d' : BlockDev) (c next : Nat) : Prop where
  frame : fs.TableFrame d d'
  failures : d'.failures = d.failures
  field : FieldSet (fs.fat d) (fs.fat d') (fs.type.entryBits * c) fs.type.clusterBits next

theorem clusterBits_le (fs : Filesystem) : fs.type.clusterBits ≤ fs.type.entryBits := by
  cases fs.type <;> decide

theorem disjoint_entries (fs : Filesystem) (h : c' ≠ c) :
    fs.type.entryBits * c' + fs.type.entryBits ≤ fs.type.entryBits * c ∨
      fs.type.entryBits * c + fs.type.entryBits ≤ fs.type.entryBits * c' := by
  cases fs.type <;> simp only [FatType.entryBits] <;> omega

theorem and_clusterMask (fs : Filesystem) (x : Nat) : x &&& fs.clusterMask = x % 2 ^ fs.type.clusterBits := by
  rw [← Nat.and_two_pow_sub_one_eq_mod]
  unfold clusterMask
  cases fs.type <;> rfl

namespace LinkSet

theorem rawEntry_of_ne (h : fs.LinkSet d d' c next) (hne : c' ≠ c) : fs.rawEntry d' c' = fs.rawEntry d c' := by
  have := disjoint_entries fs hne
  have := clusterBits_le fs
  exact h.field.field_of_disjoint (by omega)

theorem entry_of_ne (h : fs.LinkSet d d' c next) (hne : c' ≠ c) : fs.entry d' c' = fs.entry d c' := by
  have := disjoint_entries fs hne
  have := clusterBits_le fs
  exact h.field.field_of_disjoint (by omega)

theorem entry_self (h : fs.LinkSet d d' c next) : fs.entry d' c = next &&& fs.clusterMask := by
  rw [and_clusterMask]
  exact h.field.field_self

theorem reserved (h : fs.LinkSet d d' c next) :
    fs.rawEntry d' c / 2 ^ fs.type.clusterBits = fs.rawEntry d c / 2 ^ fs.type.clusterBits := by
  rw [rawEntry, rawEntry, field_div, field_div]
  exact h.field.field_of_disjoint (by omega)

end LinkSet

theorem linkSet_writeWord (hl : fs.Layout) (hc : c < fs.clusterCount + 2)
    (hw : d.writeFails (fs.wordSector c) = false) (hw' : d.writeFails (fs.wordSector' c) = false) :
    fs.LinkSet d (fs.writeWord d c (fs.updateWord c (fs.word d c) next)) c next := by
  obtain ⟨hs, hs'⟩ := hl.wordSector_lt hc
  have hlo : fs.fatStart ≤ fs.wordSector c := Nat.le_add_right _ _
  have hlo' : fs.fatStart ≤ fs.wordSector' c := Nat.le_add_right _ _
  exact
    { frame := ⟨writeWord_readFails, writeWord_writeFails, fun lba h => writeWord_blocks (by omega) (by omega)⟩
      failures := writeWord_failures.2.mpr ⟨hw, hw'⟩
      field := fieldSet_writeWord hl hw hw' }

/-- On a reliable table a link can be written. -/
theorem writeClusterChainLink_reliable (hl : fs.Layout) (hc : c < fs.clusterCount + 2) (hr : fs.TableReliable d)
    (next : Nat) : ∃ d', fs.writeClusterChainLink d c next = .ok d' ∧ fs.LinkSet d d' c next := by
  obtain ⟨hs, hs'⟩ := hl.wordSector_lt hc
  exact ⟨_, writeClusterChainLink_eq hl (hl.cluster_lt hc) (hr.wordReads hl hc),
    linkSet_writeWord hl hc (hr _ (Nat.le_add_right _ _) hs).2 (hr _ (Nat.le_add_right _ _) hs').2⟩

/-- A link write during which no access failed has replaced the entry. -/
theorem linkSet_of_success (hl : fs.Layout) (hc : c < fs.clusterCount + 2)
    (h : fs.writeClusterChainLink d c next = .ok d') (hs : d'.failures = d.failures) :
    fs.WordReads d c ∧ fs.LinkSet d d' c next := by
  by_cases hr : fs.WordReads d c
  · rw [writeClusterChainLink_eq hl (hl.cluster_lt hc) hr] at h
    obtain rfl := Except.ok.inj h
    obtain ⟨hw, hw'⟩ := writeWord_failures.2.mp hs
    exact ⟨hr, linkSet_writeWord hl hc hw hw'⟩
  · rw [writeClusterChainLink_error hl (hl.cluster_lt hc) hr] at h
    cases h

theorem wordReads_congr (h : d'.readFails = d.readFails) : fs.WordReads d' c ↔ fs.WordReads d c := by
  rw [WordReads, WordReads, h]

/-- Read over write: after a link was written, the entry reads as the link, and all
the other entries read as before. -/
theorem getFATEntry_writeClusterChainLink (hl : fs.Layout) (hc : c < fs.clusterCount + 2)
    (h : fs.writeClusterChainLink d c next = .ok d') (hs : d'.failures = d.failures) :
    fs.getFATEntry d' c = .ok (next &&& fs.clusterMask) ∧
      (∀ c' < fs.clusterCount + 2, c' ≠ c → fs.getFATEntry d' c' = fs.getFATEntry d c' ∧
        fs.getFATEntryRaw d' c' = fs.getFATEntryRaw d c') ∧
      (∃ raw raw', fs.getFATEntryRaw d c = .ok raw ∧ fs.getFATEntryRaw d' c = .ok raw' ∧
        raw' / 2 ^ fs.type.clusterBits = raw / 2 ^ fs.type.clusterBits) := by
  obtain ⟨hr, hset⟩ := linkSet_of_success hl hc h hs
  have hr' : fs.WordReads d' c := (wordReads_congr hset.frame.reads).mpr hr
  refine ⟨?_, ?_, ?_⟩
  · rw [getFATEntry_ok hl (hl.cluster_lt hc) hr', hset.entry_self]
  · intro c' hc' hne
    by_cases hc'r : fs.WordReads d c'
    · have hc'r' : fs.WordReads d' c' := (wordReads_congr hset.frame.reads).mpr hc'r
      rw [getFATEntry_ok hl (hl.cluster_lt hc') hc'r', getFATEntry_ok hl (hl.cluster_lt hc') hc'r,
        getFATEntryRaw_ok hl (hl.cluster_lt hc') hc'r',
        getFATEntryRaw_ok hl (hl.cluster_lt hc') hc'r, hset.entry_of_ne hne, hset.rawEntry_of_ne hne]
      exact ⟨rfl, rfl⟩
    · have hc'r' : ¬ fs.WordReads d' c' := fun h' => hc'r ((wordReads_congr hset.frame.reads).mp h')
      rw [getFATEntry_error hl (hl.cluster_lt hc') hc'r', getFATEntry_error hl (hl.cluster_lt hc') hc'r,
        getFATEntryRaw_error hl (hl.cluster_lt hc') hc'r',
        getFATEntryRaw_error hl (hl.cluster_lt hc') hc'r]
      exact ⟨rfl, rfl⟩
  · exact ⟨_, _, getFATEntryRaw_ok hl (hl.cluster_lt hc) hr, getFATEntryRaw_ok hl (hl.cluster_lt hc) hr', hset.reserved⟩

/-- A small volume with two copies of the table, and clusters of two sectors. -/
def small (type : FatType) : Filesystem where
  type := type
  sectorSize := 512
  sectorsPerCluster := 2
  fatStart := 1
  fatCount := 2
  fatSize := 1
  rootDirStart := if type = .fat32 then 2 else 3
  rootDirLength := if type = .fat32 then 0 else 1
  firstCluster := if type = .fat32 then 3 else 4
  clusterCount := 6

theorem layout_small (type : FatType) : (small type).Layout where
  sectorSize := ⟨9, by decide, by decide, rfl⟩
  sectorsPerCluster := ⟨1, by decide, rfl⟩
  fatStart := show 1 < 2 ^ 16 by decide
  fatCount := Nat.zero_lt_two
  fits := by cases type <;> decide
  numbers := by cases type <;> decide
  rootDir := by cases type <;> decide
  rootChain := by cases type <;> decide
  sectors := by cases type <;> decide

end XviOs.Fat.Filesystem

namespace XviOs.Fat

/-- A device without faults that holds zeros. -/
def BlockDev.blank : BlockDev := ⟨fun _ _ => 0, fun _ => false, fun _ => false, 0⟩

theorem BlockDev.reliable_blank (lo hi : Nat) : BlockDev.blank.Reliable lo hi := fun _ _ _ => ⟨rfl, rfl⟩

theorem Filesystem.getFATEntry_writeClusterChainLink_small :
    ∃ d', (small .fat12).writeClusterChainLink .blank 3 0xFFF = .ok d' ∧
      (small .fat12).getFATEntry d' 3 = .ok (0xFFF &&& (small .fat12).clusterMask) := by
  have hc : 3 < (small .fat12).clusterCount + 2 := by decide
  obtain ⟨d', h, hset⟩ := writeClusterChainLink_reliable (layout_small .fat12) hc (BlockDev.reliable_blank _ _) 0xFFF
  exact ⟨d', h, (getFATEntry_writeClusterChainLink (layout_small .fat12) hc h hset.failures).1⟩

end XviOs.Fat
