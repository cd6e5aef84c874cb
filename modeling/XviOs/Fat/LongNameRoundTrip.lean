import Mathlib.Data.List.GetD
import XviOs.Fat.LongName

namespace XviOs.Fat

/-- The entry with the given characters of a long name. -/
def lfnEntry (ordinal checksum : UInt8) (chars : List UInt16) : Dirent :=
  let lo (i : Nat) : UInt8 := (chars.getD i 0).toUInt8
  let hi (i : Nat) : UInt8 := (chars.getD i 0 >>> 8).toUInt8
  ⟨#v[ordinal, lo 0, hi 0, lo 1, hi 1, lo 2, hi 2, lo 3, hi 3, lo 4, hi 4, attributeLFN, 0, checksum,
    lo 5, hi 5, lo 6, hi 6, lo 7, hi 7, lo 8, hi 8, lo 9, hi 9, lo 10, hi 10, 0, 0, lo 11, hi 11, lo 12, hi 12]⟩

/-- The characters of part `i`, from 0, of a name: a part that the name does not fill is
ended by a NUL and padded. -/
def partChars (name : List UInt16) (i : Nat) : List UInt16 :=
  (name.drop (i * charsPerLFNEntry) ++ 0 :: List.replicate (charsPerLFNEntry - 1) 0xFFFF).take charsPerLFNEntry

def partCount (name : List UInt16) : Nat := (name.length + charsPerLFNEntry - 1) / charsPerLFNEntry

def partEntry (name : List UInt16) (checksum : UInt8) (i : Nat) : Dirent :=
  lfnEntry (UInt8.ofNat (i + 1)) checksum (partChars name i)

/-- The entries of a long name in the order in which they are stored: the last part comes first. -/
def lfnEntries (name : List UInt16) (checksum : UInt8) : List Dirent :=
  let last := partCount name - 1
  lfnEntry (directoryEntryLastLFNBit ||| UInt8.ofNat (last + 1)) checksum (partChars name last) ::
    (List.range last).reverse.map (partEntry name checksum)

theorem char_bytes (c : UInt16) :
    UInt16.ofNat (c.toUInt8.toNat + 256 * (c >>> 8).toUInt8.toNat) = c := by
  have hc := c.toNat_lt
  apply UInt16.toNat_inj.mp
  simp only [UInt16.toNat_toUInt8, UInt16.toNat_shiftRight, UInt16.toNat_ofNat, Nat.shiftRight_eq_div_pow,
    UInt16.toNat_ofNat', Nat.reducePow, Nat.reduceMod]
  omega

variable {ordinal checksum : UInt8} {chars name : List UInt16} {i : Nat}

theorem extractChars_lfnEntry (hlen : chars.length = charsPerLFNEntry) :
    LfnState.extractChars (lfnEntry ordinal checksum chars) = chars := by
  have h : LfnState.extractChars (lfnEntry ordinal checksum chars) = (List.range 13).map fun j =>
      UInt16.ofNat ((chars.getD j 0).toUInt8.toNat + 256 * (chars.getD j 0 >>> 8).toUInt8.toNat) := rfl
  have h13 : chars.length = 13 := hlen
  simp only [h, char_bytes]
  apply List.ext_getElem (by simp [h13])
  intro j hj hj'
  simp [hj']

theorem isLFNEntry_lfnEntry : (lfnEntry ordinal checksum chars).isLFNEntry = true := by
  change (attributeLFN &&& attributeMask == attributeLFN) = true
  decide

theorem length_partChars : (partChars name i).length = charsPerLFNEntry := by
  simp [partChars, charsPerLFNEntry]

theorem getD_partChars {j : Nat} {d : UInt16} (hj : j < charsPerLFNEntry)
    (hn : i * charsPerLFNEntry + j < name.length) :
    (partChars name i).getD j d = name.getD (i * charsPerLFNEntry + j) 0 := by
  have hd : j < (name.drop (i * charsPerLFNEntry)).length := by
    rw [List.length_drop]
    omega
  rw [List.getD_eq_getElem?_getD, partChars, List.getElem?_take_of_lt hj, List.getElem?_append_left hd,
    List.getElem?_drop, List.getElem?_eq_getElem hn, List.getD_eq_getElem _ _ hn]
  rfl

theorem getD_partChars_end {j : Nat} (hj : j < charsPerLFNEntry) (hn : i * charsPerLFNEntry + j = name.length) :
    (partChars name i).getD j 0 = 0 := by
  have hd : (name.drop (i * charsPerLFNEntry)).length = j := by
    rw [List.length_drop]
    omega
  rw [List.getD_eq_getElem?_getD, partChars, List.getElem?_take_of_lt hj, List.getElem?_append_right hd.le, hd,
    Nat.sub_self]
  rfl

theorem getD_partChars_padding {j : Nat} (hj : j < charsPerLFNEntry) (hi : i * charsPerLFNEntry ≤ name.length)
    (hn : name.length < i * charsPerLFNEntry + j) : (partChars name i).getD j 0 = 0xFFFF := by
  have hd : (name.drop (i * charsPerLFNEntry)).length = name.length - i * charsPerLFNEntry := List.length_drop
  have hr : j - (name.drop (i * charsPerLFNEntry)).length - 1 < charsPerLFNEntry - 1 := by omega
  rw [List.getD_eq_getElem?_getD, partChars, List.getElem?_take_of_lt hj, List.getElem?_append_right (by omega),
    List.getElem?_cons, if_neg (by omega), List.getElem?_replicate_of_lt hr]
  rfl

namespace LfnState

/-- The characters from `m + 1` to `n` are padding, and the one at `m` is not. -/
theorem lastChar_eq {m n : Nat} (hm : m ≤ n) (hpad : ∀ j, m < j → j ≤ n → chars.getD j 0 = 0xFFFF)
    (hc : chars.getD m 0 ≠ 0xFFFF) : lastChar chars n = m := by
  induction n with
  | zero => exact (Nat.le_zero.mp hm).symm
  | succ n ih =>
      rcases Nat.lt_or_ge n m with h | h
      · obtain rfl : m = n + 1 := by omega
        rw [lastChar, if_neg hc]
      · rw [lastChar, if_pos (hpad (n + 1) (by omega) (Nat.le_refl _))]
        exact ih h fun j hj hjn => hpad j hj (by omega)

theorem getD_copyChars {lfn : Vector UInt16 255} {start p : Nat} (hp : p < 255) :
    (copyChars lfn start chars).getD p 0 =
      if start ≤ p then chars.getD (p - start) (lfn.getD p 0) else lfn.getD p 0 := by
  simp [copyChars, Vector.getD, hp]

theorem ordinal_last : ∀ i : Fin 20, let o := directoryEntryLastLFNBit ||| UInt8.ofNat (i + 1)
    o &&& directoryEntryLastLFNBit ≠ 0 ∧ (o &&& ~~~directoryEntryLastLFNBit).toNat = i + 1 ∧
      o ≠ directoryEntryEnd ∧ o ≠ directoryEntryUnused := by
  decide

theorem ordinal_part : ∀ i : Fin 20, let o := UInt8.ofNat (i + 1)
    o &&& directoryEntryLastLFNBit = 0 ∧ o.toNat = i + 1 ∧ o ≠ directoryEntryEnd ∧ o ≠ directoryEntryUnused := by
  decide

/-- The characters of the parts from `i` on have been read, and part `i - 1` comes next. -/
structure Holds (s : LfnState) (name : List UInt16) (checksum : UInt8) (i : Nat) : Prop where
  length : s.length = name.length
  ordinal : s.ordinal = i
  checksum : s.checksum = checksum
  chars : ∀ p, i * charsPerLFNEntry ≤ p → p < name.length → s.lfn.getD p 0 = name.getD p 0

/-- A name that the long-name entries can hold: its end cannot be taken for padding. -/
structure IsLongName (name : List UInt16) : Prop where
  pos : 0 < name.length
  le : name.length ≤ maxLFNNameLength
  nul : ∀ c ∈ name, c ≠ 0
  last : name.getLast? ≠ some 0xFFFF

variable {s : LfnState}

theorem IsLongName.getD_ne_zero (hn : IsLongName name) {p : Nat} (hp : p < name.length) : name.getD p 0 ≠ 0 := by
  rw [List.getD_eq_getElem _ _ hp]
  exact hn.nul _ (List.getElem_mem hp)

theorem IsLongName.getD_last_ne (hn : IsLongName name) : name.getD (name.length - 1) 0 ≠ 0xFFFF := by
  have hpos := hn.pos
  have hlast := hn.last
  rw [List.getLast?_eq_getElem?, List.getElem?_eq_getElem (by omega)] at hlast
  rw [List.getD_eq_getElem _ _ (by omega)]
  exact fun h => hlast (by rw [h])

/-- The end of the name in its last part, found from the padding. -/
theorem offset_last (hn : IsLongName name) (hlt : i * charsPerLFNEntry < name.length)
    (hle : name.length ≤ (i + 1) * charsPerLFNEntry) :
    ∃ m, lastChar (partChars name i) (charsPerLFNEntry - 1) = m ∧
      ((m > 0 ∧ (partChars name i).getD m 0 = 0 ∧ i * charsPerLFNEntry + m = name.length) ∨
        (¬ (m > 0 ∧ (partChars name i).getD m 0 = 0) ∧ i * charsPerLFNEntry + m + 1 = name.length)) := by
  have h13 : (i + 1) * charsPerLFNEntry = i * charsPerLFNEntry + 13 := by rw [Nat.add_one_mul]; rfl
  by_cases hfull : name.length = i * charsPerLFNEntry + 13
  · have hlast : (partChars name i).getD 12 0 = name.getD (name.length - 1) 0 := by
      rw [getD_partChars (by decide) (by omega)]
      congr 1
      omega
    refine ⟨12, lastChar_eq (Nat.le_refl _) (fun j hj hj' => ?_) ?_, .inr ⟨?_, by omega⟩⟩
    · have : charsPerLFNEntry - 1 = 12 := rfl
      omega
    · rw [hlast]
      exact hn.getD_last_ne
    · rw [hlast]
      exact fun h => hn.getD_ne_zero (by omega) h.2
  · have hend : (partChars name i).getD (name.length - i * charsPerLFNEntry) 0 = 0 :=
      getD_partChars_end (by change _ < 13; omega) (by omega)
    refine ⟨name.length - i * charsPerLFNEntry, lastChar_eq ?_ (fun j hj hj' => ?_) ?_,
      .inl ⟨by omega, hend, by omega⟩⟩
    · change _ ≤ 12
      omega
    · have : charsPerLFNEntry - 1 = 12 := rfl
      exact getD_partChars_padding (by change _ < 13; omega) hlt.le (by omega)
    · rw [hend]
      decide

/-- The offset of the last character of a last part, as `applyLastLFNEntry` computes it. -/
def lastOffset (chars : List UInt16) : Nat :=
  let offset := lastChar chars (charsPerLFNEntry - 1)
  if offset > 0 ∧ chars.getD offset 0 = 0 then offset - 1 else offset

theorem applyLast_eq {e : Dirent} (hflag : e.ordinal &&& directoryEntryLastLFNBit ≠ 0)
    (hord : (e.ordinal &&& ~~~directoryEntryLastLFNBit).toNat = i + 1) (hi : i < 20) (htype : e.type = 0)
    (hlen : i * charsPerLFNEntry + lastOffset (extractChars e) + 1 ≤ maxLFNNameLength) :
    empty.applyLastLFNEntry e = (true,
      ⟨copyChars empty.lfn (i * charsPerLFNEntry) ((extractChars e).take (lastOffset (extractChars e) + 1)),
        i * charsPerLFNEntry + lastOffset (extractChars e) + 1, i, e.checksum⟩) := by
  have hrange : ¬ ((e.ordinal &&& ~~~directoryEntryLastLFNBit).toNat > maxLFNOrdinal ∨
      (e.ordinal &&& ~~~directoryEntryLastLFNBit).toNat < minLFNOrdinal) := by
    rw [hord, maxLFNOrdinal, minLFNOrdinal]
    omega
  rw [applyLastLFNEntry, if_neg hflag]
  dsimp only
  rw [if_neg hrange, if_neg (not_not.mpr htype)]
  simp only [hord, Nat.add_sub_cancel]
  exact if_neg (by exact not_lt.mpr hlen)

theorem applyLast_lfnEntry (checksum : UInt8) (hn : IsLongName name) (hlt : i * charsPerLFNEntry < name.length)
    (hle : name.length ≤ (i + 1) * charsPerLFNEntry) :
    ∃ s, empty.applyLastLFNEntry
        (lfnEntry (directoryEntryLastLFNBit ||| UInt8.ofNat (i + 1)) checksum (partChars name i)) = (true, s) ∧
      s.Holds name checksum i := by
  have hmax : name.length ≤ 255 := hn.le
  have hi : i < 20 := by
    have : i * charsPerLFNEntry = i * 13 := rfl
    omega
  obtain ⟨hflag, hord, -, -⟩ := ordinal_last ⟨i, hi⟩
  obtain ⟨m, hm, hoff⟩ := offset_last hn hlt hle
  have hlast : i * charsPerLFNEntry + lastOffset (partChars name i) + 1 = name.length := by
    rw [lastOffset, hm]
    rcases hoff with ⟨hpos, hnul, hlen⟩ | ⟨hnot, hlen⟩
    · rw [if_pos ⟨hpos, hnul⟩]
      omega
    · rw [if_neg hnot]
      omega
  have hchars : extractChars (lfnEntry (directoryEntryLastLFNBit ||| UInt8.ofNat (i + 1)) checksum
      (partChars name i)) = partChars name i := extractChars_lfnEntry length_partChars
  refine ⟨_, applyLast_eq hflag hord hi rfl (by rw [hchars, hlast]; exact hn.le), ?_⟩
  rw [hchars]
  refine ⟨hlast, rfl, rfl, fun p hp hlen => ?_⟩
  have h13 : (i + 1) * charsPerLFNEntry = i * charsPerLFNEntry + 13 := by rw [Nat.add_one_mul]; rfl
  have htake : p - i * charsPerLFNEntry < lastOffset (partChars name i) + 1 := by omega
  rw [getD_copyChars (by omega), if_pos hp, List.getD_eq_getElem?_getD, List.getElem?_take_of_lt htake,
    ← List.getD_eq_getElem?_getD, getD_partChars (by change _ < 13; omega) (by omega), Nat.add_sub_cancel' hp]

/-- Reading part `i`, where the parts after it have been read. -/
theorem apply_lfnEntry (hn : IsLongName name) (hs : s.Holds name checksum (i + 1))
    (hle : (i + 1) * charsPerLFNEntry < name.length) :
    ∃ t, s.applyLFNEntry (partEntry name checksum i) = .ok (true, t) ∧ t.Holds name checksum i := by
  have hmax : name.length ≤ 255 := hn.le
  have h13 : (i + 1) * charsPerLFNEntry = i * charsPerLFNEntry + 13 := by rw [Nat.add_one_mul]; rfl
  have hi : i < 20 := by
    have : i * charsPerLFNEntry = i * 13 := rfl
    omega
  obtain ⟨hflag, hord, -, -⟩ := ordinal_part ⟨i, hi⟩
  have hfits : ¬ (s.ordinal = 0 ∨ (s.ordinal - 1) * charsPerLFNEntry + charsPerLFNEntry > maxLFNNameLength) := by
    rw [hs.ordinal, Nat.add_sub_cancel]
    have : charsPerLFNEntry = 13 := rfl
    have : maxLFNNameLength = 255 := rfl
    omega
  refine ⟨⟨copyChars s.lfn (i * charsPerLFNEntry) (partChars name i), s.length, i, s.checksum⟩, ?_,
    hs.length, rfl, hs.checksum, fun p hp hlen => ?_⟩
  · have hlast : ¬ (partEntry name checksum i).ordinal &&& directoryEntryLastLFNBit ≠ 0 := not_not.mpr hflag
    have hnext : ¬ (partEntry name checksum i).ordinal.toNat ≠ s.ordinal := not_not.mpr (hord.trans hs.ordinal.symm)
    have htype : ¬ (partEntry name checksum i).type ≠ 0 := not_not.mpr rfl
    have hsum : ¬ (partEntry name checksum i).checksum ≠ s.checksum := not_not.mpr hs.checksum.symm
    rw [applyLFNEntry, if_neg hlast, if_neg hnext, if_neg htype, if_neg hsum, if_neg hfits, hs.ordinal,
      Nat.add_sub_cancel, partEntry, extractChars_lfnEntry length_partChars]
  · rw [getD_copyChars (by omega), if_pos hp]
    by_cases hpart : p < (i + 1) * charsPerLFNEntry
    · rw [getD_partChars (by change _ < 13; omega) (by omega), Nat.add_sub_cancel' hp]
    · rw [List.getD_eq_default _ _ (by rw [length_partChars]; change 13 ≤ _; omega)]
      exact hs.chars p (by omega) hlen

theorem part_lt (hn : IsLongName name) (hlt : i * charsPerLFNEntry < name.length) : i < 20 := by
  have hmax : name.length ≤ 255 := hn.le
  have h13 : i * charsPerLFNEntry = i * 13 := rfl
  omega

theorem scan_last (s : LfnState) (checksum : UInt8) (hn : IsLongName name) (hlt : i * charsPerLFNEntry < name.length)
    (hle : name.length ≤ (i + 1) * charsPerLFNEntry) :
    ∃ t, s.scan (lfnEntry (directoryEntryLastLFNBit ||| UInt8.ofNat (i + 1)) checksum (partChars name i)) =
      .ok (.skipped t) ∧ t.Holds name checksum i := by
  obtain ⟨t, ht, hholds⟩ := applyLast_lfnEntry checksum hn hlt hle
  obtain ⟨hflag, -, hend, hunused⟩ := ordinal_last ⟨i, part_lt hn hlt⟩
  refine ⟨t, ?_, hholds⟩
  have hlast : (lfnEntry (directoryEntryLastLFNBit ||| UInt8.ofNat (i + 1)) checksum
      (partChars name i)).isLastLFNEntry = true := by
    rw [Dirent.isLastLFNEntry, isLFNEntry_lfnEntry, Bool.true_and]
    exact bne_iff_ne.mpr hflag
  rw [scan, if_neg (by exact hend), if_neg (by exact hunused), if_pos isLFNEntry_lfnEntry, if_pos hlast, ht]

theorem scan_part (hn : IsLongName name) (hs : s.Holds name checksum (i + 1))
    (hle : (i + 1) * charsPerLFNEntry < name.length) :
    ∃ t, s.scan (partEntry name checksum i) = .ok (.skipped t) ∧ t.Holds name checksum i := by
  have h13 : i * charsPerLFNEntry ≤ (i + 1) * charsPerLFNEntry := Nat.mul_le_mul_right _ (by omega)
  obtain ⟨t, ht, hholds⟩ := apply_lfnEntry hn hs hle
  obtain ⟨hflag, -, hend, hunused⟩ := ordinal_part ⟨i, part_lt hn (by omega)⟩
  refine ⟨t, ?_, hholds⟩
  have hlast : ¬ (partEntry name checksum i).isLastLFNEntry = true := by
    rw [Dirent.isLastLFNEntry, partEntry, isLFNEntry_lfnEntry, Bool.true_and, bne_iff_ne]
    exact not_not.mpr hflag
  have hlfn : (partEntry name checksum i).isLFNEntry = true := isLFNEntry_lfnEntry
  rw [scan, if_neg (by exact hend), if_neg (by exact hunused), if_pos hlfn, if_neg hlast, ht]
  rfl

/-- The parts below `i`, from the last of them to the first. -/
theorem process_parts (hn : IsLongName name) (hs : s.Holds name checksum i)
    (hle : i * charsPerLFNEntry < name.length) :
    ∃ t, s.process ((List.range i).reverse.map (partEntry name checksum)) = .ok t ∧ t.Holds name checksum 0 := by
  induction i generalizing s with
  | zero => exact ⟨s, rfl, hs⟩
  | succ i ih =>
      obtain ⟨t, ht, hholds⟩ := scan_part hn hs hle
      have h13 : i * charsPerLFNEntry ≤ (i + 1) * charsPerLFNEntry := Nat.mul_le_mul_right _ (by omega)
      obtain ⟨u, hu, hu0⟩ := ih hholds (by omega)
      refine ⟨u, ?_, hu0⟩
      rw [List.range_succ, List.reverse_append, List.reverse_singleton, List.singleton_append, List.map_cons, process, ht]
      exact hu

/-- The whole name is in the array, and the checksum is the one of the short name. -/
theorem validate_holds {e : Dirent} (hn : IsLongName name) (hs : s.Holds name (shortNameChecksum e) 0) :
    s.validateShortNameEntry e = (true, s) := by
  have hpos := hn.pos
  have hat : ∀ p, p < name.length → s.lfn.getD p 0 = name.getD p 0 := fun p => hs.chars p (by simp)
  obtain ⟨n, hlen⟩ : ∃ n, name.length = n + 1 := ⟨name.length - 1, by omega⟩
  have hlast : s.lfn.getD n 0 = name.getD n 0 := hat n (by omega)
  have htrim : trimPadding s.lfn s.length = n + 1 := by
    have hne := hn.getD_last_ne
    rw [hlen, Nat.add_sub_cancel, ← hlast] at hne
    rw [hs.length, hlen, trimPadding, if_neg hne]
  have hkeep : ¬ (n + 1 > 0 ∧ s.lfn.getD (n + 1 - 1) 0 = 0) := by
    rw [Nat.add_sub_cancel, hlast]
    exact fun h => hn.getD_ne_zero (by omega) h.2
  have hname : ¬ (n + 1 = 0 ∨ (n + 1 = 1 ∧ (s.lfn.getD 0 0 = 0 ∨ s.lfn.getD 0 0 = 0xFFFF))) := by
    rintro (h | ⟨h1, h0 | hF⟩)
    · omega
    · rw [hat 0 hpos] at h0
      exact hn.getD_ne_zero hpos h0
    · have hne := hn.getD_last_ne
      rw [show name.length - 1 = 0 by omega, ← hat 0 hpos] at hne
      exact hne hF
  rw [validateShortNameEntry, if_neg (not_not.mpr hs.ordinal), if_neg (not_not.mpr hs.checksum.symm)]
  dsimp only
  rw [htrim, if_neg hkeep, if_neg hname, ← hlen, ← hs.length]

theorem chars_of_holds {checksum : UInt8} (hn : IsLongName name) (hs : s.Holds name checksum 0) :
    s.lfn.toList.take s.length = name := by
  have hmax : name.length ≤ 255 := hn.le
  apply List.ext_getElem
  · simp [hs.length, hmax]
  · intro p hp hp'
    have h := hs.chars p (by simp) hp'
    rw [List.getD_eq_getElem _ _ hp'] at h
    rw [← h, List.getElem_take, Vector.getElem_toList]
    simp [Vector.getD, show p < 255 by omega]

/-- The entries of a long name, followed by the short entry: the name read is the name written. -/
theorem process_lfnEntries (name : List UInt16) (e : Dirent) (hn : IsLongName name) :
    ∃ s, empty.process (lfnEntries name (shortNameChecksum e)) = .ok s ∧
      s.validateShortNameEntry e = (true, s) ∧ (e.IsShort → s.scan e = .ok (.found s)) ∧
        s.length = name.length ∧ s.lfn.toList.take s.length = name := by
  have hpos := hn.pos
  obtain ⟨last, hcount⟩ : ∃ last, partCount name - 1 = last := ⟨_, rfl⟩
  have hdiv : partCount name = (name.length + 12) / 13 := rfl
  have hlt : last * charsPerLFNEntry < name.length := by
    change last * 13 < _
    omega
  have hle : name.length ≤ (last + 1) * charsPerLFNEntry := by
    change _ ≤ (last + 1) * 13
    omega
  obtain ⟨t, ht, hholds⟩ := scan_last empty (shortNameChecksum e) hn hlt hle
  obtain ⟨s, hs, hall⟩ := process_parts hn hholds hlt
  have hvalid := validate_holds hn hall
  refine ⟨s, ?_, hvalid, fun hshort => ?_, hall.length, chars_of_holds hn hall⟩
  · rw [lfnEntries, hcount, process, ht]
    exact hs
  · have hlen : s.length > 0 := by
      rw [hall.length]
      exact hpos
    have hlfn : ¬ e.isLFNEntry = true := by simp [hshort.2.2]
    rw [scan, if_neg hshort.1, if_neg hshort.2.1, if_neg hlfn, if_pos hlen, hvalid]
    rfl

/-- A name of two parts. -/
theorem process_lfnEntries_two : ∃ s : LfnState,
    empty.process (lfnEntries (List.replicate 14 0x61) (shortNameChecksum ⟨Vector.replicate 32 0x41⟩)) = .ok s ∧
      s.length = 14 ∧ s.lfn.toList.take s.length = List.replicate 14 0x61 := by
  have hn : IsLongName (List.replicate 14 0x61) :=
    { pos := by simp
      le := by simp [maxLFNNameLength]
      nul := by simp
      last := by simp }
  obtain ⟨s, hs, _, _, hlen, hchars⟩ := process_lfnEntries (List.replicate 14 0x61) ⟨Vector.replicate 32 0x41⟩ hn
  exact ⟨s, hs, hlen, hchars⟩

end LfnState

end XviOs.Fat
