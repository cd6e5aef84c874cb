import XviOs.Fat.ClusterChain
import XviOs.Fat.Object

namespace XviOs.Fat.Filesystem

open Library.LittleEndian Library.BitField

variable {fs : Filesystem} {d d' : BlockDev} {info : ObjectInfo} {cl : List Nat} {α : Type}
  {callback : Nat → Bytes → α → Except Fault (Bool × α)} {data : Nat → Bytes} {a : α}
  {c i k m m' n offset length fuel : Nat}

/-! ## Where the data of a cluster stands -/

theorem clusterToSector_eq (hl : fs.Layout) (hc : fs.IsCluster c) :
    fs.clusterToSector c = fs.firstCluster + (c - 2) * fs.sectorsPerCluster := by
  have hcl := hl.cluster_lt hc.2
  have hsub : u32 (c + (2 ^ 32 - 2)) = c - 2 := by
    have := hc.1
    rw [u32]
    omega
  have hmul : (c - 2) * fs.sectorsPerCluster ≤ fs.clusterCount * fs.sectorsPerCluster :=
    Nat.mul_le_mul_right _ (Nat.sub_le_iff_le_add.mpr (Nat.le_of_lt hc.2))
  have := hl.sectors
  rw [clusterToSector, hsub, u32_of_lt (by omega)]

theorem clusterSector_lt (hl : fs.Layout) (hc : fs.IsCluster c) (hi : i < fs.sectorsPerCluster) :
    fs.clusterToSector c + i < 2 ^ 32 := by
  have hmul : (c - 2 + 1) * fs.sectorsPerCluster ≤ fs.clusterCount * fs.sectorsPerCluster := by
    obtain ⟨h2, hlt⟩ := hc
    exact Nat.mul_le_mul_right _ (by omega)
  have := hl.sectors
  rw [Nat.add_one_mul] at hmul
  rw [clusterToSector_eq hl hc]
  omega

theorem Layout.sectorsPerCluster_pos (hl : fs.Layout) : 0 < fs.sectorsPerCluster := by
  obtain ⟨k, -, hk⟩ := hl.sectorsPerCluster
  rw [hk]
  exact Nat.two_pow_pos k

theorem Layout.clusterSize_le (hl : fs.Layout) : 0 < fs.clusterSize ∧ fs.clusterSize ≤ 2 ^ 19 := by
  obtain ⟨k, -, hk12, hk⟩ := hl.sectorSize
  obtain ⟨j, hj7, hj⟩ := hl.sectorsPerCluster
  rw [clusterSize, hk, hj, ← Nat.pow_add]
  exact ⟨Nat.two_pow_pos _, Nat.pow_le_pow_right (by decide) (by omega)⟩

/-- The table of a device decides the entries of the clusters. -/
theorem entry_congr (hl : fs.Layout) (hd : ∀ lba, lba < fs.firstCluster → d'.blocks lba = d.blocks lba)
    (hc : c < fs.clusterCount + 2) : fs.entry d' c = fs.entry d c := by
  apply Nat.eq_of_testBit_eq
  intro j
  rw [entry, entry, testBit_field, testBit_field]
  by_cases hj : j < fs.type.clusterBits
  · have hbits := fs.clusterBits_le
    have hmul : fs.type.entryBits * (c + 1) ≤ fs.type.entryBits * (fs.clusterCount + 2) := Nat.mul_le_mul_left _ hc
    rw [Nat.mul_add_one] at hmul
    have hbyte : (fs.type.entryBits * c + j) / 8 < fs.sectorSize * fs.fatSize := by
      have := hl.fits
      omega
    have hsector := Nat.div_lt_of_lt_mul hbyte
    have := hl.fat_end
    rw [bit, bit, fat, fat, hd _ (by omega)]
  · simp [hj]

/-! ## The blocks of a file -/

/-- A file of a consistent volume: the chain from its first cluster on consists of the clusters `cl`,
which hold it, and the device reads all of their sectors. -/
structure IsFile (fs : Filesystem) (d : BlockDev) (info : ObjectInfo) (cl : List Nat) : Prop where
  type : info.type = .file
  chain : info.dirent.size ≠ 0 → fs.Chain d info.startCluster cl
  length : info.dirent.size ≤ cl.length * fs.clusterSize
  links : fs.Readable d cl
  sectors : ∀ c ∈ cl, ∀ i < fs.sectorsPerCluster, d.readFails (fs.clusterToSector c + i) = false

/-- The sector of the `k`-th block of what the clusters `cl` hold. -/
def fileSector (fs : Filesystem) (cl : List Nat) (k : Nat) : Nat :=
  fs.clusterToSector (cl.getD (k / fs.sectorsPerCluster) 0) + k % fs.sectorsPerCluster

def fileBlock (fs : Filesystem) (d : BlockDev) (cl : List Nat) (k : Nat) : Bytes := d.blocks (fs.fileSector cl k)

/-- The callback on the `m` blocks from the `k`-th on, until it asks to stop. -/
def visitBlocks (fs : Filesystem) (callback : Nat → Bytes → α → Except Fault (Bool × α)) (data : Nat → Bytes) :
    (m k : Nat) → α → Except Fault (Bool × α)
  | 0, _, a => .ok (true, a)
  | m + 1, k, a => do
      let r ← callback (u32 (k * fs.sectorSize)) (data k) a
      if r.1 then visitBlocks fs callback data m (k + 1) r.2 else return (false, r.2)

theorem visitBlocks_add : fs.visitBlocks callback data (m + m') k a = (do
    let r ← fs.visitBlocks callback data m k a
    if r.1 then fs.visitBlocks callback data m' (k + m) r.2 else return (false, r.2)) := by
  induction m generalizing k a with
  | zero =>
      rw [Nat.zero_add]
      rfl
  | succ m ih =>
      rw [Nat.add_right_comm, visitBlocks, visitBlocks]
      cases callback (u32 (k * fs.sectorSize)) (data k) a with
      | error e => rfl
      | ok r =>
          simp only [bind, Except.bind]
          cases hr : r.1 with
          | false => rfl
          | true =>
              simp only [if_true]
              rw [ih, show k + 1 + m = k + (m + 1) by omega]
              rfl

/-- A visit goes on behind a boundary between `lo` and `hi`. -/
theorem visitBlocks_split (fs : Filesystem) (callback : Nat → Bytes → α → Except Fault (Bool × α)) (data : Nat → Bytes)
    (a : α) (first last : Nat) {lo hi : Nat} (h : lo ≤ hi) :
    fs.visitBlocks callback data (last - max first lo) (max first lo) a = (do
      let r ← fs.visitBlocks callback data (min last hi - max first lo) (max first lo) a
      if r.1 then fs.visitBlocks callback data (last - max first hi) (max first hi) r.2 else return (false, r.2)) := by
  have hcount : last - max first lo = min last hi - max first lo + (last - max first hi) := by omega
  nth_rewrite 1 [hcount]
  rw [visitBlocks_add]
  by_cases hnone : last - max first hi = 0
  · rw [hnone]
    rfl
  · rw [show max first lo + (min last hi - max first lo) = max first hi by omega]

section Cluster

variable {firstSector lastSector sector sectorIndex : Nat}

/-- The loop over the sectors of a cluster visits those that are asked for. -/
theorem readClusterSectors_eq (hwrap : sectorIndex + fs.sectorsPerCluster ≤ 2 ^ 32)
    (hread : ∀ i < fs.sectorsPerCluster, d.readBlock (u32 (sector + i)) = some (data (sectorIndex + i)))
    (hn : i + n = fs.sectorsPerCluster) :
    fs.readClusterSectors (fun _ => d) firstSector lastSector sector sectorIndex callback n i a =
      fs.visitBlocks callback data
        (min lastSector (sectorIndex + fs.sectorsPerCluster) - max firstSector (sectorIndex + i))
        (max firstSector (sectorIndex + i)) a := by
  induction n generalizing i a with
  | zero =>
      rw [show min lastSector (sectorIndex + fs.sectorsPerCluster) - max firstSector (sectorIndex + i) = 0 by omega]
      rfl
  | succ n ih =>
      rw [readClusterSectors, u32_of_lt (show sectorIndex + i < 2 ^ 32 by omega)]
      by_cases hfirst : sectorIndex + i < firstSector
      · rw [if_pos hfirst, ih (by omega)]
        rw [show max firstSector (sectorIndex + (i + 1)) = max firstSector (sectorIndex + i) by omega]
      · rw [if_neg hfirst]
        by_cases hlast : lastSector ≤ sectorIndex + i
        · rw [if_pos hlast]
          rw [show min lastSector (sectorIndex + fs.sectorsPerCluster) - max firstSector (sectorIndex + i) = 0 by omega]
          rfl
        · have hcount : min lastSector (sectorIndex + fs.sectorsPerCluster) - max firstSector (sectorIndex + i) =
              min lastSector (sectorIndex + fs.sectorsPerCluster) - max firstSector (sectorIndex + (i + 1)) + 1 := by
            omega
          have hthis : max firstSector (sectorIndex + i) = sectorIndex + i := by omega
          have hnext : max firstSector (sectorIndex + (i + 1)) = sectorIndex + i + 1 := by omega
          rw [if_neg hlast, hread i (by omega), hcount, hthis, visitBlocks]
          simp only [deref, bind, Except.bind]
          cases callback (u32 ((sectorIndex + i) * fs.sectorSize)) (data (sectorIndex + i)) a with
          | error e => rfl
          | ok r => simp only [ih (show i + 1 + n = _ by omega), hnext]

end Cluster

/-- What `readBlocks` does on the clusters of a chain. -/
def visitCluster (fs : Filesystem) (d : BlockDev) (callback : Nat → Bytes → α → Except Fault (Bool × α))
    (offset stop n cluster : Nat) (a : α) : Except Fault (Bool × α) :=
  if n ≥ (stop + fs.clusterSize - 1) / fs.clusterSize then .ok (false, a)
  else if n < offset / fs.clusterSize then .ok (true, a)
  else
    fs.readClusterSectors (fun _ => d) (offset / fs.sectorSize) ((stop + fs.sectorSize - 1) / fs.sectorSize)
      (fs.clusterToSector cluster) (u32 (n * fs.sectorsPerCluster)) callback fs.sectorsPerCluster 0 a

/-- The clusters of a list hold the blocks `data` from the cluster with the index `n` on. -/
def Holds (fs : Filesystem) (d : BlockDev) (data : Nat → Bytes) (n : Nat) (l : List Nat) : Prop :=
  ∀ j (hj : j < l.length), ∀ i < fs.sectorsPerCluster,
    d.readBlock (u32 (fs.clusterToSector l[j] + i)) = some (data ((n + j) * fs.sectorsPerCluster + i))

/-- Walking along a chain visits the blocks from the offset on up to the one with the end. -/
theorem visitChain_visitCluster (callback : Nat → Bytes → α → Except Fault (Bool × α)) (offset : Nat)
    (hl : fs.Layout) {l : List Nat} {stop : Nat} (hl' : fs.Holds d data n l)
    (hstop : stop ≤ (n + l.length) * fs.clusterSize) (hwrap : stop + fs.clusterSize ≤ 2 ^ 32) :
    visitChain (fs.visitCluster d callback offset stop) n l a =
      (fs.visitBlocks callback data
        ((stop + fs.sectorSize - 1) / fs.sectorSize - max (offset / fs.sectorSize) (n * fs.sectorsPerCluster))
        (max (offset / fs.sectorSize) (n * fs.sectorsPerCluster)) a).map Prod.snd := by
  have hsector := hl.sectorSize_pos
  have hcluster := hl.clusterSize_le.1
  -- the sectors that are asked for end within the clusters that are
  have hlast {x : Nat} (hx : stop ≤ x * fs.clusterSize) :
      (stop + fs.sectorSize - 1) / fs.sectorSize ≤ x * fs.sectorsPerCluster := by
    rw [Nat.div_le_iff_le_mul_add_pred hsector]
    have : fs.sectorSize * (x * fs.sectorsPerCluster) = x * fs.clusterSize := by
      rw [clusterSize]
      ring
    omega
  induction l generalizing n a with
  | nil =>
      have hnone := hlast hstop
      rw [List.length_nil, Nat.add_zero] at hnone
      rw [show (stop + fs.sectorSize - 1) / fs.sectorSize -
        max (offset / fs.sectorSize) (n * fs.sectorsPerCluster) = 0 by omega]
      rfl
  | cons c l ih =>
      have hrest : fs.Holds d data (n + 1) l := by
        intro j hj i hi
        have := hl' (j + 1) (Nat.succ_lt_succ hj) i hi
        rwa [List.getElem_cons_succ, show n + (j + 1) = n + 1 + j by omega] at this
      have hih := fun a => ih (a := a) hrest (by rwa [List.length_cons, ← Nat.add_assoc, Nat.add_right_comm] at hstop)
      rw [visitChain, visitCluster]
      by_cases hend : n ≥ (stop + fs.clusterSize - 1) / fs.clusterSize
      · rw [if_pos hend]
        have hnone := hlast (x := n) (by
          rw [ge_iff_le, Nat.div_le_iff_le_mul_add_pred hcluster, Nat.mul_comm] at hend
          omega)
        rw [show (stop + fs.sectorSize - 1) / fs.sectorSize -
          max (offset / fs.sectorSize) (n * fs.sectorsPerCluster) = 0 by omega]
        rfl
      · rw [if_neg hend]
        by_cases hfirst : n < offset / fs.clusterSize
        · have hskip : (n + 1) * fs.sectorsPerCluster ≤ offset / fs.sectorSize := by
            rw [clusterSize, ← Nat.div_div_eq_div_mul] at hfirst
            exact (Nat.le_div_iff_mul_le hl.sectorsPerCluster_pos).mp hfirst
          have hbefore : n * fs.sectorsPerCluster ≤ (n + 1) * fs.sectorsPerCluster := Nat.mul_le_mul_right _ (by omega)
          rw [if_pos hfirst]
          change visitChain _ (n + 1) l a = _
          rw [hih, max_eq_left hskip, max_eq_left (hbefore.trans hskip)]
        · have hbelow : (n + 1) * fs.clusterSize ≤ stop + fs.clusterSize - 1 :=
            (Nat.le_div_iff_mul_le hcluster).mp (not_le.mp hend)
          have hindex : n * fs.sectorsPerCluster + fs.sectorsPerCluster ≤ 2 ^ 32 := by
            have : (n + 1) * fs.sectorsPerCluster ≤ (n + 1) * fs.clusterSize :=
              Nat.mul_le_mul_left _ (Nat.le_mul_of_pos_left _ hsector)
            rw [Nat.add_one_mul n fs.sectorsPerCluster] at this
            omega
          have hpos := hl.sectorsPerCluster_pos
          have hblocks : ∀ i < fs.sectorsPerCluster,
              d.readBlock (u32 (fs.clusterToSector c + i)) = some (data (n * fs.sectorsPerCluster + i)) :=
            hl' 0 (Nat.zero_lt_succ _)
          rw [if_neg hfirst, u32_of_lt (by omega), readClusterSectors_eq hindex hblocks (Nat.zero_add _)]
          have hsplit := visitBlocks_split fs callback data a
            (offset / fs.sectorSize) ((stop + fs.sectorSize - 1) / fs.sectorSize)
            (Nat.mul_le_mul_right fs.sectorsPerCluster (Nat.le_succ n))
          rw [Nat.add_zero, ← Nat.add_one_mul n fs.sectorsPerCluster, hsplit]
          cases fs.visitBlocks callback data _ _ a with
          | error e => rfl
          | ok r =>
              rcases r with ⟨_ | _, a'⟩
              · rfl
              · exact hih a'

theorem fileSector_eq (hl : fs.Layout) {i j : Nat} (hj : j < cl.length) (hi : i < fs.sectorsPerCluster) :
    fs.fileSector cl (j * fs.sectorsPerCluster + i) = fs.clusterToSector cl[j] + i := by
  have hdiv : (j * fs.sectorsPerCluster + i) / fs.sectorsPerCluster = j := by
    rw [Nat.mul_comm, Nat.mul_add_div hl.sectorsPerCluster_pos, Nat.div_eq_of_lt hi, Nat.add_zero]
  have hmod : (j * fs.sectorsPerCluster + i) % fs.sectorsPerCluster = i := by
    rw [Nat.mul_comm, Nat.mul_add_mod, Nat.mod_eq_of_lt hi]
  rw [fileSector, hdiv, hmod, List.getD_eq_getElem?_getD, List.getElem?_eq_getElem hj, Option.getD_some]

theorem holds_fileBlock (hl : fs.Layout) (hcl : ∀ c ∈ cl, fs.IsCluster c)
    (hs : ∀ c ∈ cl, ∀ i < fs.sectorsPerCluster, d.readFails (fs.clusterToSector c + i) = false) :
    fs.Holds d (fs.fileBlock d cl) 0 cl := by
  intro j hj i hi
  have hc := hcl cl[j] (List.getElem_mem hj)
  rw [u32_of_lt (clusterSector_lt hl hc hi), fileBlock, Nat.zero_add, fileSector_eq hl hj hi]
  exact BlockDev.readBlock_of_reads (hs _ (List.getElem_mem hj) i hi)

/-- From the start of a sector on, the blocks of a chain that holds `size` bytes are visited up to the one
with the end. -/
theorem readBlocks_chain (hl : fs.Layout) {size : Nat} (hsize : info.size fs d fuel = .ok size)
    (htype : info.type = .rootDirectory → fs.type = .fat32) (hchain : size ≠ 0 → fs.Chain d info.startCluster cl)
    (hlength : size ≤ cl.length * fs.clusterSize) (hr : fs.Readable d cl)
    (hs : ∀ c ∈ cl, ∀ i < fs.sectorsPerCluster, d.readFails (fs.clusterToSector c + i) = false)
    (hfuel : cl.length ≤ fuel) (hoffset : offset % fs.sectorSize = 0) :
    fs.readBlocks (fun _ => d) fuel info offset length callback a =
      let stop := min (u32 (offset + length)) size
      if stop + fs.clusterSize ≤ 2 ^ 32 then
        (fs.visitBlocks callback (fs.fileBlock d cl)
          ((stop + fs.sectorSize - 1) / fs.sectorSize - offset / fs.sectorSize) (offset / fs.sectorSize) a).map Prod.snd
      else .ok a := by
  have hsector := hl.sectorSize_pos
  have hcluster := hl.clusterSize_le
  have hle : fs.sectorSize ≤ fs.clusterSize := Nat.le_mul_of_pos_right _ hl.sectorsPerCluster_pos
  have hend : u32 (offset + length) < 2 ^ 32 := Nat.mod_lt _ (by decide)
  have hmask : offset &&& (fs.sectorSize - 1) = 0 := by
    obtain ⟨k, -, -, hk⟩ := hl.sectorSize
    rw [hk] at hoffset ⊢
    rw [Nat.and_two_pow_sub_one_eq_mod, hoffset]
  rw [readBlocks, hsize]
  simp only [bind, Except.bind]
  generalize hstop : min (u32 (offset + length)) size = stop
  by_cases hnone : offset ≥ stop
  · have hzero : (stop + fs.sectorSize - 1) / fs.sectorSize - offset / fs.sectorSize = 0 := by
      have hdvd := Nat.div_mul_cancel (Nat.dvd_of_mod_eq_zero hoffset)
      rw [Nat.sub_eq_zero_iff_le, Nat.div_le_iff_le_mul_add_pred hsector, Nat.mul_comm, hdvd]
      omega
    rw [if_pos hnone, hzero]
    split <;> rfl
  · have hnoRoot : ¬ (info.type = .rootDirectory ∧ (fs.type = .fat12 ∨ fs.type = .fat16)) := by
      rintro ⟨hroot, h | h⟩ <;> exact absurd (htype hroot) (by rw [h]; decide)
    rw [if_neg hnone, if_neg hnoRoot, hmask, Nat.sub_zero]
    have hchain := hchain (by omega)
    have hkeep (callback' : Nat → Nat → α → Except Fault (Bool × α)) : fs.KeepsLinks (fun _ => d) callback' cl :=
      fun _ _ _ _ _ _ _ hread => ⟨hread, rfl⟩
    rw [readClusterChain_chain hl hr hchain (hkeep _) hfuel]
    by_cases hwrap : stop + fs.clusterSize ≤ 2 ^ 32
    · have hvisit := visitChain_visitCluster callback offset (a := a) hl (holds_fileBlock hl hchain.clusters hs)
        (show stop ≤ (0 + cl.length) * fs.clusterSize by rw [Nat.zero_add]; omega) hwrap
      rw [if_pos hwrap, u32_of_lt (by omega), u32_of_lt (by omega), ← Nat.add_sub_assoc hsector,
        ← Nat.add_sub_assoc hcluster.1]
      rw [Nat.zero_mul, Nat.max_zero] at hvisit
      exact hvisit
    · -- the number of clusters wraps around, and the walk ends at once
      have hlast : u32 (stop + (fs.clusterSize - 1)) / fs.clusterSize = 0 := by
        apply Nat.div_eq_of_lt
        rw [u32]
        omega
      rw [if_neg hwrap, hlast]
      cases cl with
      | nil => exact absurd rfl hchain.links.ne_nil
      | cons c l => rfl

theorem readBlocks_file (hl : fs.Layout) (hf : fs.IsFile d info cl) (hfuel : cl.length ≤ fuel)
    (hoffset : offset % fs.sectorSize = 0) :
    fs.readBlocks (fun _ => d) fuel info offset length callback a =
      let stop := min (u32 (offset + length)) info.dirent.size
      if stop + fs.clusterSize ≤ 2 ^ 32 then
        (fs.visitBlocks callback (fs.fileBlock d cl)
          ((stop + fs.sectorSize - 1) / fs.sectorSize - offset / fs.sectorSize) (offset / fs.sectorSize) a).map Prod.snd
      else .ok a := by
  have hsize : info.size fs d fuel = .ok info.dirent.size := by
    rw [ObjectInfo.size, if_pos (.inl hf.type)]
  have htype : info.type = .rootDirectory → fs.type = .fat32 := by
    rw [hf.type]
    exact nofun
  exact readBlocks_chain hl hsize htype hf.chain hf.length hf.links hf.sectors hfuel hoffset

end XviOs.Fat.Filesystem
