import XviOs.Fat.ReadBlocks

namespace XviOs.Fat.Filesystem

open Library.LittleEndian Library.Bits

variable {fs : Filesystem} {d d' : BlockDev} {info : ObjectInfo} {cl : List Nat} {s : ReadState}
  {data : Nat → Bytes} {c k m n offset length room fuel so : Nat}

/-! ## What a read should do -/

def fileByte (fs : Filesystem) (d : BlockDev) (cl : List Nat) (x : Nat) : UInt8 :=
  fs.fileBlock d cl (x / fs.sectorSize) (x % fs.sectorSize)

/-- The `n` bytes of the file from the offset on. -/
def fileBytes (fs : Filesystem) (d : BlockDev) (cl : List Nat) (offset n : Nat) : List UInt8 :=
  (List.range n).map fun i => fs.fileByte d cl (offset + i)

/-- The number of bytes that a read should return. -/
def readCount (size offset length : Nat) : Nat := min length (size - offset)

/-- The read returns the bytes of the file that are asked for, and stores no others. -/
def ReadRight (fs : Filesystem) (d : BlockDev) (info : ObjectInfo) (cl : List Nat) (offset length room : Nat) : Prop :=
  ∀ fuel, cl.length ≤ fuel → fs.readTo d fuel info offset length room =
    .ok (readCount info.dirent.size offset length,
      fs.fileBytes d cl offset (readCount info.dirent.size offset length))

/-- The number of the sectors from the one with the offset on that a read goes over. -/
def sectorsRead (fs : Filesystem) (size offset length : Nat) : Nat :=
  let stop := min ((u32 (offset + length) + fs.sectorSize - 1) % 2 ^ 32 / fs.sectorSize * fs.sectorSize) size
  if stop + fs.clusterSize ≤ 2 ^ 32 then
    (stop + fs.sectorSize - 1) / fs.sectorSize - offset / fs.sectorSize
  else 0

/-- Either nothing is copied, and nothing should be, or the bytes up to the end of the last sector or of the
buffer are those asked for, and the buffer does not end inside of a sector behind the first one. -/
def ReadFits (fs : Filesystem) (size offset length room : Nat) : Prop :=
  let sectors := fs.sectorsRead size offset length
  let available := sectors * fs.sectorSize - offset % fs.sectorSize
  if room < length ∨ sectors = 0 then readCount size offset length = 0
  else readCount size offset length = min available room ∧
    (sectors = 1 ∨ offset % fs.sectorSize = 0 ∨ available ≤ room)

instance (fs : Filesystem) (size offset length room : Nat) : Decidable (fs.ReadFits size offset length room) := by
  unfold ReadFits
  infer_instance

/-! ## Copying the blocks -/

/-- The callback of `readTo` on the `m` blocks from the `k`-th on. -/
def copyBlocks (fs : Filesystem) (sectorOffset : Nat) (data : Nat → Bytes) : (m k : Nat) → ReadState → Bool × ReadState
  | 0, _, s => (true, s)
  | m + 1, k, s =>
      let r := fs.copySector sectorOffset (data k) s
      if r.1 then copyBlocks fs sectorOffset data m (k + 1) r.2 else (false, r.2)

theorem copyBlocks_add : fs.copyBlocks so data (m + n) k s =
    if (fs.copyBlocks so data m k s).1 then fs.copyBlocks so data n (k + m) (fs.copyBlocks so data m k s).2
    else fs.copyBlocks so data m k s := by
  induction m generalizing k s with
  | zero => simp [copyBlocks]
  | succ m ih =>
      rw [Nat.add_right_comm, copyBlocks, copyBlocks]
      cases hr : (fs.copySector so (data k) s).1 with
      | false => simp
      | true =>
          simp only [if_true]
          rw [ih, show k + 1 + m = k + (m + 1) by omega]

theorem visitBlocks_copySector (fs : Filesystem) (so : Nat) (data : Nat → Bytes) (m k : Nat) (s : ReadState) :
    fs.visitBlocks (fun _ data s => .ok (fs.copySector so data s)) data m k s = .ok (fs.copyBlocks so data m k s) := by
  induction m generalizing k s with
  | zero => rfl
  | succ m ih =>
      rw [visitBlocks, copyBlocks]
      simp only [bind, Except.bind, ih, pure, Except.pure]
      split <;> rfl

theorem fileBytes_add (fs : Filesystem) (d : BlockDev) (cl : List Nat) (x m n : Nat) :
    fs.fileBytes d cl x (m + n) = fs.fileBytes d cl x m ++ fs.fileBytes d cl (x + m) n := by
  simp only [fileBytes, List.range_add, List.map_append, List.map_map, Function.comp_def, Nat.add_assoc]

theorem bytesFrom_fileBlock (fs : Filesystem) (d : BlockDev) (cl : List Nat) (k : Nat) (h : so + n ≤ fs.sectorSize) :
    bytesFrom (fs.fileBlock d cl k) so n = fs.fileBytes d cl (k * fs.sectorSize + so) n := by
  rw [bytesFrom, fileBytes]
  apply List.map_congr_left
  intro i hi
  have hi := List.mem_range.mp hi
  rw [fileByte, Nat.add_assoc, Nat.mul_comm, Nat.mul_add_div (by omega), Nat.div_eq_of_lt (by omega), Nat.add_zero,
    Nat.mul_add_mod, Nat.mod_eq_of_lt (by omega)]

/-- Behind the first block, whole blocks are copied while there is room. -/
theorem copyBlocks_behind (hpos : 0 < fs.sectorSize) (hread : s.read ≠ 0) (hout : 0 < s.out)
    (hso : so = 0 ∨ m * fs.sectorSize ≤ s.out) (hwrap : s.read + m * fs.sectorSize < 2 ^ 32) :
    fs.copyBlocks so (fs.fileBlock d cl) m k s =
      (decide (m * fs.sectorSize < s.out), {
        out := s.out - min (m * fs.sectorSize) s.out
        read := s.read + min (m * fs.sectorSize) s.out
        written := s.written ++ fs.fileBytes d cl (k * fs.sectorSize) (min (m * fs.sectorSize) s.out) }) := by
  induction m generalizing k s with
  | zero => simp [copyBlocks, hout, fileBytes]
  | succ m ih =>
      rw [Nat.add_one_mul] at hso hwrap ⊢
      rw [copyBlocks]
      by_cases hfits : fs.sectorSize ≤ s.out
      · have hcopy : fs.copySector so (fs.fileBlock d cl k) s = (s.out - fs.sectorSize != 0, {
            out := s.out - fs.sectorSize
            read := s.read + fs.sectorSize
            written := s.written ++ fs.fileBytes d cl (k * fs.sectorSize) fs.sectorSize }) := by
          rw [copySector]
          simp only [if_neg (show ¬ (s.read = 0 ∨ fs.sectorSize > s.out) by omega)]
          rw [u32_of_lt (by omega), bytesFrom_fileBlock fs d cl k (Nat.le_of_eq (Nat.zero_add _)), Nat.add_zero]
        rw [hcopy]
        by_cases hfull : s.out = fs.sectorSize
        · simp [hfull]
        · have hgo : (s.out - fs.sectorSize != 0) = true := by simp; omega
          have hnext := ih (k := k + 1) (s := {
            out := s.out - fs.sectorSize
            read := s.read + fs.sectorSize
            written := s.written ++ fs.fileBytes d cl (k * fs.sectorSize) fs.sectorSize })
            (by simp; omega) (by simp; omega) (by simp; omega) (by simp; omega)
          have hmin : min (m * fs.sectorSize + fs.sectorSize) s.out =
              fs.sectorSize + min (m * fs.sectorSize) (s.out - fs.sectorSize) := by
            omega
          have hmore : m * fs.sectorSize < s.out - fs.sectorSize ↔ m * fs.sectorSize + fs.sectorSize < s.out := by
            omega
          simp only [hgo, if_true, hnext, hmin, hmore, fileBytes_add, Nat.add_one_mul, List.append_assoc,
            Nat.sub_add_eq, Nat.add_assoc]
      · -- the buffer ends in this block
        have hzero : so = 0 := by omega
        have hmin : min (m * fs.sectorSize + fs.sectorSize) s.out = s.out := by omega
        have hcopy : fs.copySector so (fs.fileBlock d cl k) s = (false, {
            out := s.out - s.out
            read := s.read + s.out
            written := s.written ++ fs.fileBytes d cl (k * fs.sectorSize) s.out }) := by
          rw [copySector]
          simp only [if_pos (show s.read = 0 ∨ fs.sectorSize > s.out by omega), hzero]
          rw [Nat.sub_zero, min_eq_right (by omega), u32_of_lt (by omega),
            bytesFrom_fileBlock fs d cl k (by omega), Nat.add_zero]
          simp
        rw [hcopy, hmin]
        simp
        omega

/-- The first block is copied from the offset in it on. -/
theorem copySector_first (hso : so < fs.sectorSize) (hsize : fs.sectorSize < 2 ^ 32) :
    fs.copySector so (fs.fileBlock d cl k) ⟨room, 0, []⟩ =
      (room - min (fs.sectorSize - so) room != 0, {
        out := room - min (fs.sectorSize - so) room
        read := min (fs.sectorSize - so) room
        written := fs.fileBytes d cl (k * fs.sectorSize + so) (min (fs.sectorSize - so) room) }) := by
  rw [copySector]
  simp only [true_or, if_true]
  rw [u32_of_lt (by omega), bytesFrom_fileBlock fs d cl k (by omega), Nat.zero_add, List.nil_append]

/-- What is copied before a block that the buffer ends in. -/
theorem copyBlocks_first (d : BlockDev) (cl : List Nat) (k : Nat)
    (hso : so < fs.sectorSize) (hwrap : (m + 1) * fs.sectorSize < 2 ^ 32)
    (hfits : m = 0 ∨ so = 0 ∨ (m + 1) * fs.sectorSize - so ≤ room ∨ room ≤ fs.sectorSize - so) :
    let r := (fs.copyBlocks so (fs.fileBlock d cl) (m + 1) k ⟨room, 0, []⟩).2
    r.read = min ((m + 1) * fs.sectorSize - so) room ∧
      r.written = fs.fileBytes d cl (k * fs.sectorSize + so) (min ((m + 1) * fs.sectorSize - so) room) := by
  rw [Nat.add_one_mul] at hwrap hfits ⊢
  rw [copyBlocks, copySector_first hso (by omega)]
  by_cases hfull : room ≤ fs.sectorSize - so
  · have hmin : min (m * fs.sectorSize + fs.sectorSize - so) room = room := by omega
    rw [min_eq_right hfull, hmin]
    simp
  · have hgo : (room - (fs.sectorSize - so) != 0) = true := by
      rw [bne_iff_ne]
      omega
    have hmin : min (m * fs.sectorSize + fs.sectorSize - so) room =
        fs.sectorSize - so + min (m * fs.sectorSize) (room - (fs.sectorSize - so)) := by
      omega
    have hstart : k * fs.sectorSize + so + (fs.sectorSize - so) = (k + 1) * fs.sectorSize := by
      rw [Nat.add_one_mul]
      omega
    have hrest : so = 0 ∨ m * fs.sectorSize ≤ room - (fs.sectorSize - so) := by
      rcases hfits with rfl | h | h | h <;> omega
    rw [min_eq_left (by omega), if_pos hgo, copyBlocks_behind (by omega) (by simp; omega) (by simp; omega)
      hrest (by simp; omega), hmin, fileBytes_add, hstart]
    exact ⟨rfl, rfl⟩

/-- The read goes over the sectors from the one with the offset on. -/
theorem readTo_eq (hl : fs.Layout) (hf : fs.IsFile d info cl) (hfuel : cl.length ≤ fuel) (hoffset : offset < 2 ^ 32)
    (hroom : length ≤ room) :
    let s := (fs.copyBlocks (offset % fs.sectorSize) (fs.fileBlock d cl)
      (fs.sectorsRead info.dirent.size offset length) (offset / fs.sectorSize) ⟨room, 0, []⟩).2
    fs.readTo d fuel info offset length room = .ok (s.read, s.written) := by
  obtain ⟨k, -, hk12, hk⟩ := hl.sectorSize
  have hpos := hl.sectorSize_pos
  have hdown : offset &&& alignMask 32 fs.sectorSize = offset / fs.sectorSize * fs.sectorSize := by
    rw [hk, and_alignMask (by omega) hoffset, Nat.div_mul_self_eq_mod_sub_self]
  have hup : alignUp 32 (u32 (offset + length)) fs.sectorSize =
      (u32 (offset + length) + fs.sectorSize - 1) % 2 ^ 32 / fs.sectorSize * fs.sectorSize := by
    rw [alignUp, hk, and_alignMask (by omega) (Nat.mod_lt _ (by decide)), Nat.div_mul_self_eq_mod_sub_self]
  have hle : offset / fs.sectorSize * fs.sectorSize ≤ offset := Nat.div_mul_le_self _ _
  have hstop : (u32 (offset + length) + fs.sectorSize - 1) % 2 ^ 32 / fs.sectorSize * fs.sectorSize < 2 ^ 32 :=
    (Nat.div_mul_le_self _ _).trans_lt (Nat.mod_lt _ (by decide))
  rw [readTo, if_neg (by omega)]
  simp only [hdown, hup]
  rw [sectorsRead]
  generalize (u32 (offset + length) + fs.sectorSize - 1) % 2 ^ 32 / fs.sectorSize * fs.sectorSize = stop at hstop ⊢
  have hend : u32 (offset / fs.sectorSize * fs.sectorSize +
      u32 (stop + (2 ^ 32 - offset / fs.sectorSize * fs.sectorSize))) = stop := by
    simp only [u32]
    omega
  rw [readBlocks_file hl hf hfuel (Nat.mul_mod_left _ _), hend, Nat.mul_div_cancel _ hpos]
  simp only [visitBlocks_copySector]
  split <;> rfl

/-! ## The sectors of a read -/

theorem sectorsRead_lt (hl : fs.Layout) (size offset length : Nat) :
    fs.sectorsRead size offset length * fs.sectorSize < 2 ^ 32 := by
  have hle : fs.sectorSize ≤ fs.clusterSize := Nat.le_mul_of_pos_right _ hl.sectorsPerCluster_pos
  have hpos := hl.sectorSize_pos
  rw [sectorsRead]
  split
  · next h =>
      generalize min _ size = stop at h ⊢
      calc ((stop + fs.sectorSize - 1) / fs.sectorSize - offset / fs.sectorSize) * fs.sectorSize
        _ ≤ (stop + fs.sectorSize - 1) / fs.sectorSize * fs.sectorSize := Nat.mul_le_mul_right _ (Nat.sub_le _ _)
        _ ≤ stop + fs.sectorSize - 1 := Nat.div_mul_le_self _ _
        _ < 2 ^ 32 := by omega
  · rw [Nat.zero_mul]
    exact Nat.two_pow_pos 32

/-- A read goes no further than the sector that its last byte lies in. -/
theorem sectorsRead_le (hl : fs.Layout) {size : Nat} (h : offset + length ≤ (offset / fs.sectorSize + n) * fs.sectorSize) :
    fs.sectorsRead size offset length ≤ n := by
  have hpos := hl.sectorSize_pos
  have hend : (u32 (offset + length) + fs.sectorSize - 1) % 2 ^ 32 / fs.sectorSize ≤ offset / fs.sectorSize + n := by
    have hmod := Nat.mod_le (u32 (offset + length) + fs.sectorSize - 1) (2 ^ 32)
    have hu32 : u32 (offset + length) ≤ offset + length := Nat.mod_le _ _
    rw [Nat.div_le_iff_le_mul_add_pred hpos, Nat.mul_comm]
    omega
  rw [sectorsRead]
  split
  · have hstop := Nat.mul_le_mul_right fs.sectorSize hend
    rw [Nat.sub_le_iff_le_add', Nat.div_le_iff_le_mul_add_pred hpos, Nat.mul_comm fs.sectorSize]
    omega
  · exact Nat.zero_le n

/-- The sectors that a read goes over hold a part of the file. -/
theorem sectorsRead_inside (hl : fs.Layout) (hf : fs.IsFile d info cl)
    (hk : k < offset / fs.sectorSize + fs.sectorsRead info.dirent.size offset length)
    (hle : offset / fs.sectorSize ≤ k) : info.dirent.size ≠ 0 ∧ k / fs.sectorsPerCluster < cl.length := by
  have hpos := hl.sectorSize_pos
  rw [sectorsRead] at hk
  split at hk
  · have hstop : min ((u32 (offset + length) + fs.sectorSize - 1) % 2 ^ 32 / fs.sectorSize * fs.sectorSize)
        info.dirent.size ≤ info.dirent.size := min_le_right _ _
    generalize min _ info.dirent.size = stop at hk hstop
    have hend : k + 1 ≤ (info.dirent.size + fs.sectorSize - 1) / fs.sectorSize := by
      have hmono : (stop + fs.sectorSize - 1) / fs.sectorSize ≤ (info.dirent.size + fs.sectorSize - 1) / fs.sectorSize :=
        Nat.div_le_div_right (by omega)
      omega
    have hlast := (Nat.le_div_iff_mul_le hpos).mp hend
    have hlength := hf.length
    rw [Nat.add_one_mul] at hlast
    refine ⟨by rintro h0; rw [h0] at hlast; omega, ?_⟩
    rw [Nat.div_lt_iff_lt_mul hl.sectorsPerCluster_pos]
    apply Nat.lt_of_mul_lt_mul_right (a := fs.sectorSize)
    calc k * fs.sectorSize
      _ < info.dirent.size := by omega
      _ ≤ cl.length * fs.clusterSize := hlength
      _ = cl.length * fs.sectorsPerCluster * fs.sectorSize := by
        rw [clusterSize]
        ring
  · omega

/-! ## A buffer that ends inside of a block -/

theorem length_fileBytes (fs : Filesystem) (d : BlockDev) (cl : List Nat) (x n : Nat) :
    (fs.fileBytes d cl x n).length = n := by
  rw [fileBytes, List.length_map, List.length_range]

theorem getD_fileBytes (fs : Filesystem) (d : BlockDev) (cl : List Nat) (x n i : Nat) :
    (fs.fileBytes d cl x n).getD i 0 = if i < n then fs.fileByte d cl (x + i) else 0 := by
  rw [fileBytes, List.getD_eq_getElem?_getD, List.getElem?_map]
  by_cases hi : i < n
  · rw [List.getElem?_range hi, if_pos hi]
    rfl
  · rw [List.getElem?_eq_none (by rw [List.length_range]; omega), if_neg hi]
    rfl

/-- In the block that the buffer ends in, the copy does not begin with the first byte. -/
theorem copyBlocks_inside (d : BlockDev) (cl : List Nat) (k : Nat)
    (hso : so < fs.sectorSize) (hread : s.read ≠ 0) (hlo : m * fs.sectorSize < s.out)
    (hhi : s.out < (m + 1) * fs.sectorSize) (hwrap : s.read + m * fs.sectorSize < 2 ^ 32) :
    (fs.copyBlocks so (fs.fileBlock d cl) (m + 1) k s).2.written.getD
      (s.written.length + m * fs.sectorSize) 0 = fs.fileBlock d cl (k + m) so := by
  rw [Nat.add_one_mul] at hhi
  rw [copyBlocks_add, copyBlocks_behind (by omega) hread (by omega) (.inr hlo.le) hwrap, if_pos (by simpa using hlo),
    min_eq_left hlo.le]
  have hlength : (s.written ++ fs.fileBytes d cl (k * fs.sectorSize) (m * fs.sectorSize)).length =
      s.written.length + m * fs.sectorSize := by
    rw [List.length_append, length_fileBytes]
  have hroom : min (fs.sectorSize - so) (s.out - m * fs.sectorSize) ≠ 0 := by omega
  have hcopy (r : ReadState) (hr : fs.sectorSize > r.out) : (fs.copySector so (fs.fileBlock d cl (k + m)) r).2.written =
      r.written ++ bytesFrom (fs.fileBlock d cl (k + m)) so (min (fs.sectorSize - so) r.out) := by
    rw [copySector]
    simp only [if_pos (show r.read = 0 ∨ fs.sectorSize > r.out from .inr hr)]
  have hone (r : ReadState) : (fs.copyBlocks so (fs.fileBlock d cl) 1 (k + m) r).2 =
      (fs.copySector so (fs.fileBlock d cl (k + m)) r).2 := by
    rw [copyBlocks]
    split <;> rfl
  rw [hone, hcopy _ (by simp only; omega), List.getD_eq_getElem?_getD, ← hlength,
    List.getElem?_append_right (Nat.le_refl _), Nat.sub_self]
  obtain ⟨n, hn⟩ := Nat.exists_eq_succ_of_ne_zero hroom
  simp only [hn, bytesFrom, List.range_succ_eq_map, List.map_cons, List.getElem?_cons_zero, Option.getD_some,
    Nat.add_zero]

/-- The device with other bytes in the clusters: each sector begins with a zero, and goes on with ones. -/
def marked (fs : Filesystem) (d : BlockDev) : BlockDev :=
  { d with blocks := fun lba x => if lba < fs.firstCluster then d.blocks lba x else if x = 0 then 0 else 1 }

theorem IsFile.marked (hl : fs.Layout) (hf : fs.IsFile d info cl) : fs.IsFile (fs.marked d) info cl where
  type := hf.type
  chain := by
    intro hpos
    have hchain := hf.chain hpos
    refine hchain.congr (fun c hc => entry_congr hl ?_ (hchain.clusters c hc).2)
    intro lba hlba
    funext x
    exact if_pos hlba
  length := hf.length
  links := fun c hc => (wordReads_congr rfl).mpr (hf.links c hc)
  sectors := hf.sectors

theorem fileBlock_marked (hl : fs.Layout) (hf : fs.IsFile d info cl) (hpos : info.dirent.size ≠ 0)
    (hk : k / fs.sectorsPerCluster < cl.length) (x : Nat) :
    fs.fileBlock (fs.marked d) cl k x = if x = 0 then 0 else 1 := by
  have hc := (hf.chain hpos).clusters _ (List.getElem_mem hk)
  have hget : cl.getD (k / fs.sectorsPerCluster) 0 = cl[k / fs.sectorsPerCluster] := by
    rw [List.getD_eq_getElem?_getD, List.getElem?_eq_getElem hk, Option.getD_some]
  rw [fileBlock, fileSector, hget, clusterToSector_eq hl hc]
  exact if_neg (by omega)

/-! ## When a read is right -/

theorem readTo_small (h : room < length) : fs.readTo d fuel info offset length room = .ok (0, []) := by
  rw [readTo, if_pos h]

theorem readTo_none (hl : fs.Layout) (hf : fs.IsFile d info cl) (hfuel : cl.length ≤ fuel) (hoffset : offset < 2 ^ 32)
    (hroom : length ≤ room) (h : fs.sectorsRead info.dirent.size offset length = 0) :
    fs.readTo d fuel info offset length room = .ok (0, []) := by
  rw [readTo_eq hl hf hfuel hoffset hroom, h]
  rfl

/-- A read that the buffer does not end in the middle of. -/
theorem readTo_fits (hl : fs.Layout) (hf : fs.IsFile d info cl) (hfuel : cl.length ≤ fuel) (hoffset : offset < 2 ^ 32)
    (hroom : length ≤ room) (hm : fs.sectorsRead info.dirent.size offset length = m + 1)
    (hfits : m = 0 ∨ offset % fs.sectorSize = 0 ∨ (m + 1) * fs.sectorSize - offset % fs.sectorSize ≤ room) :
    fs.readTo d fuel info offset length room =
      .ok (min ((m + 1) * fs.sectorSize - offset % fs.sectorSize) room,
        fs.fileBytes d cl offset (min ((m + 1) * fs.sectorSize - offset % fs.sectorSize) room)) := by
  have hwrap := sectorsRead_lt hl info.dirent.size offset length
  rw [hm] at hwrap
  have hfirst := copyBlocks_first d cl (offset / fs.sectorSize)
    (Nat.mod_lt offset hl.sectorSize_pos) hwrap (hfits.imp_right (Or.imp_right Or.inl))
  rw [readTo_eq hl hf hfuel hoffset hroom, hm]
  simp only at hfirst ⊢
  rw [hfirst.1, hfirst.2, Nat.div_add_mod']

/-- An unaligned read into a buffer that ends inside of a later sector stores a wrong byte, unless it
asks for less. -/
theorem readTo_inside (hl : fs.Layout) (hf : fs.IsFile d info cl) (hoffset : offset < 2 ^ 32) (hroom : length ≤ room)
    (hm : fs.sectorsRead info.dirent.size offset length = m + 2) (hso : offset % fs.sectorSize ≠ 0)
    (hout : room < (m + 2) * fs.sectorSize - offset % fs.sectorSize) :
    ¬ fs.ReadRight (fs.marked d) info cl offset length room := by
  intro hright
  have hso' := Nat.mod_lt offset hl.sectorSize_pos
  have hsplit := Nat.div_add_mod' offset fs.sectorSize
  have hwrap := sectorsRead_lt hl info.dirent.size offset length
  have hm1 : (m + 1) * fs.sectorSize = m * fs.sectorSize + fs.sectorSize := Nat.add_one_mul _ _
  have hm2 : (m + 2) * fs.sectorSize = (m + 1) * fs.sectorSize + fs.sectorSize := Nat.add_one_mul _ _
  rw [hm] at hwrap
  -- what is asked for reaches into the last of the sectors
  have hlong : (m + 1) * fs.sectorSize < offset % fs.sectorSize + length := by
    by_contra hshort
    have hend : offset + length ≤ (offset / fs.sectorSize + (m + 1)) * fs.sectorSize := by
      rw [Nat.add_mul]
      omega
    have hle : fs.sectorsRead info.dirent.size offset length ≤ m + 1 := sectorsRead_le hl hend
    omega
  obtain ⟨hpos, hinside⟩ := sectorsRead_inside (k := offset / fs.sectorSize + 1 + m) hl hf
    (by rw [hm]; omega) (by omega)
  have hread := hright cl.length (Nat.le_refl _)
  have hfull : (room - min (fs.sectorSize - offset % fs.sectorSize) room != 0) = true := by
    rw [bne_iff_ne]
    omega
  rw [readTo_eq hl (hf.marked hl) (Nat.le_refl _) hoffset hroom, hm, copyBlocks,
    copySector_first hso' (by omega)] at hread
  simp only [hfull, if_true] at hread
  have hlast := copyBlocks_inside (fs.marked d) cl (offset / fs.sectorSize + 1) (m := m) hso'
    (s := {
      out := room - min (fs.sectorSize - offset % fs.sectorSize) room
      read := min (fs.sectorSize - offset % fs.sectorSize) room
      written := fs.fileBytes (fs.marked d) cl (offset / fs.sectorSize * fs.sectorSize + offset % fs.sectorSize)
        (min (fs.sectorSize - offset % fs.sectorSize) room) })
    (by simp only; omega) (by simp only; omega) (by simp only; omega) (by simp only; omega)
  have hbyte : offset + (min (fs.sectorSize - offset % fs.sectorSize) room + m * fs.sectorSize) =
      fs.sectorSize * (offset / fs.sectorSize + 1 + m) := by
    rw [Nat.mul_comm fs.sectorSize, Nat.add_mul, Nat.add_one_mul]
    omega
  rw [(Prod.mk.inj (Except.ok.inj hread)).2, length_fileBytes, getD_fileBytes, hbyte, fileByte,
    Nat.mul_div_cancel_left _ hl.sectorSize_pos, Nat.mul_mod_right, fileBlock_marked hl hf hpos hinside,
    fileBlock_marked hl hf hpos hinside, if_pos rfl, if_neg hso, ite_self] at hlast
  exact absurd hlast (by decide)

theorem ReadFits.readRight (hl : fs.Layout) (hf : fs.IsFile d info cl) (hoffset : offset < 2 ^ 32)
    (h : fs.ReadFits info.dirent.size offset length room) : fs.ReadRight d info cl offset length room := by
  intro fuel hfuel
  rw [ReadFits] at h
  split at h
  · next hnone =>
      have hread : fs.readTo d fuel info offset length room = .ok (0, []) := by
        by_cases hroom : room < length
        · exact readTo_small hroom
        · exact readTo_none hl hf hfuel hoffset (not_lt.mp hroom) (hnone.resolve_left hroom)
      rw [hread, h]
      rfl
  · next hsome =>
      obtain ⟨hroom, hpos⟩ := not_or.mp hsome
      obtain ⟨m, hm⟩ := Nat.exists_eq_succ_of_ne_zero hpos
      obtain ⟨hcount, hfits⟩ := h
      rw [hm] at hcount hfits
      rw [hcount]
      exact readTo_fits hl hf hfuel hoffset (not_lt.mp hroom) hm (hfits.imp_left Nat.succ.inj)

/-- Whatever the bytes of the file are, reading it gives those that were asked for if and only if no more than these
fit in the buffer or lie in the sectors that the read goes over, and the buffer does not end inside of a sector
behind the first one of an unaligned read. -/
theorem readTo_right_iff (hl : fs.Layout) (hf : fs.IsFile d info cl) (hoffset : offset < 2 ^ 32) :
    (∀ d', fs.IsFile d' info cl → fs.ReadRight d' info cl offset length room) ↔
      fs.ReadFits info.dirent.size offset length room := by
  refine ⟨fun h => ?_, fun h d' hf' => h.readRight hl hf' hoffset⟩
  have hright := h d hf cl.length (Nat.le_refl _)
  rw [ReadFits]
  split
  · next hnone =>
      have hread : fs.readTo d cl.length info offset length room = .ok (0, []) := by
        by_cases hroom : room < length
        · exact readTo_small hroom
        · exact readTo_none hl hf (Nat.le_refl _) hoffset (not_lt.mp hroom) (hnone.resolve_left hroom)
      rw [hread] at hright
      exact (Prod.mk.inj (Except.ok.inj hright)).1.symm
  · next hsome =>
      obtain ⟨hroom, hpos⟩ := not_or.mp hsome
      obtain ⟨m, hm⟩ := Nat.exists_eq_succ_of_ne_zero hpos
      rw [hm]
      by_cases hfits : m = 0 ∨ offset % fs.sectorSize = 0 ∨
          (m + 1) * fs.sectorSize - offset % fs.sectorSize ≤ room
      · rw [readTo_fits hl hf (Nat.le_refl _) hoffset (not_lt.mp hroom) hm hfits] at hright
        exact ⟨(Prod.mk.inj (Except.ok.inj hright)).1.symm, hfits.imp_left (congrArg Nat.succ)⟩
      · rw [not_or, not_or, not_le] at hfits
        obtain ⟨hm0, hso, hout⟩ := hfits
        obtain ⟨q, rfl⟩ := Nat.exists_eq_succ_of_ne_zero hm0
        exact absurd (h _ (hf.marked hl)) (readTo_inside hl hf hoffset (not_lt.mp hroom) hm hso hout)

/-- A file of 1100 bytes in the clusters that `linked` leads over. -/
def linkedFile : ObjectInfo :=
  .ofDirent [] ((Dirent.setCluster ⟨Vector.replicate 32 0⟩ 2).setSize 1100)

theorem isFile_linkedFile : (small .fat12).IsFile linked linkedFile [2, 3, 5] where
  type := by decide
  chain := fun _ => chain_linked
  length := by decide
  links := fun _ _ => ⟨rfl, rfl⟩
  sectors := fun _ _ _ _ => rfl

theorem readTo_right_iff_linked : (small .fat12).ReadRight linked linkedFile [2, 3, 5] 600 424 424 :=
  (readTo_right_iff (layout_small .fat12) isFile_linkedFile (by decide)).mpr (by decide) linked isFile_linkedFile

theorem not_readRight_linked :
    ¬ ∀ (fs : Filesystem) (d : BlockDev) (info : ObjectInfo) (cl : List Nat) (offset length room : Nat),
      fs.Layout → fs.IsFile d info cl → offset + length < 2 ^ 32 → length ≤ room →
        fs.ReadRight d info cl offset length room := by
  intro hall
  have hright := hall _ _ _ _ 0 1 2 (layout_small .fat12) isFile_linkedFile (by decide) (by decide) 3 (by decide)
  have hread : (small .fat12).readTo linked 3 linkedFile 0 1 2 = .ok (min (512 - 0) 2, _) :=
    readTo_fits (m := 0) (layout_small .fat12) isFile_linkedFile (by decide) (by decide) (by decide) (by decide)
      (.inl rfl)
  have hcount := (Prod.mk.inj (Except.ok.inj (hread.symm.trans hright))).1
  exact absurd hcount (by decide)

end XviOs.Fat.Filesystem
