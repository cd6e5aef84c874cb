import XviOs.Fat.LongNameRoundTrip
import XviOs.Fat.LongNameSafety

namespace XviOs.Fat

/-- A part in use of a long name for a short name with this checksum. -/
structure Dirent.IsPart (e : Dirent) (sum : UInt8) : Prop where
  not_end : ¬ e.IsEnd
  used : ¬ e.IsUnused
  long : e.isLFNEntry = true
  type : e.type = 0
  checksum : e.checksum = sum

/-- The entries are the last-flagged part of a long name and then the parts below it, down to the one above part
`i`; `units` are the characters of these parts, without the padding of the last one. -/
inductive LfnRun (sum : UInt8) : (i : Nat) → List Dirent → List UInt16 → Prop
  | last {i : Nat} {e : Dirent} : e.IsPart sum → e.isLastLFNEntry = true →
      (e.ordinal &&& ~~~directoryEntryLastLFNBit).toNat = i + 1 →
      LfnRun sum i [e] ((LfnState.extractChars e).take (LfnState.lastOffset (LfnState.extractChars e) + 1))
  | part {i : Nat} {es : List Dirent} {e : Dirent} {units : List UInt16} : LfnRun sum (i + 1) es units → e.IsPart sum →
      e.isLastLFNEntry = false → e.ordinal.toNat = i + 1 → LfnRun sum i (es ++ [e]) (LfnState.extractChars e ++ units)

/-- The name without the padding at its end, of which one NUL may be a part. -/
def trimName (units : List UInt16) : List UInt16 :=
  let name := units.rdropWhile (· == 0xFFFF)
  if name.getLast? = some 0 then name.dropLast else name

/-- What is left of the name is not empty, and not a single character of padding. -/
def Acceptable (units : List UInt16) : Prop := trimName units ≠ [] ∧ trimName units ≠ [0] ∧ trimName units ≠ [0xFFFF]

theorem LfnRun.isPart {sum : UInt8} {i : Nat} {es : List Dirent} {units : List UInt16} (h : LfnRun sum i es units) :
    ∀ e ∈ es, e.IsPart sum := by
  induction h with
  | last he _ _ =>
      intro x hx
      obtain rfl := List.mem_singleton.mp hx
      exact he
  | part _ he _ _ ih =>
      intro x hx
      rcases List.mem_append.mp hx with hx | hx
      · exact ih x hx
      · obtain rfl := List.mem_singleton.mp hx
        exact he

theorem LfnRun.ne_nil {sum : UInt8} {i : Nat} {es : List Dirent} {units : List UInt16} (h : LfnRun sum i es units) :
    es ≠ [] := by
  cases h with
  | last _ _ _ => exact List.cons_ne_nil _ _
  | part _ _ _ _ => exact List.append_ne_nil_of_right_ne_nil _ (List.cons_ne_nil _ _)

instance (units : List UInt16) : Decidable (Acceptable units) := inferInstanceAs (Decidable (_ ∧ _))

namespace LfnState

variable {s s' : LfnState} {e : Dirent} {i n : Nat} {units : List UInt16} {sum : UInt8}

/-- The characters of the long name. -/
def chars (s : LfnState) : List UInt16 := s.lfn.toList.take s.length

/-- The parts above part `i` have been read. -/
structure Reads (s : LfnState) (sum : UInt8) (i : Nat) (units : List UInt16) : Prop where
  length : s.length = i * charsPerLFNEntry + units.length
  le : s.length ≤ maxLFNNameLength
  ordinal : s.ordinal = i
  checksum : s.checksum = sum
  content : ∀ p, p < units.length → s.lfn.getD (i * charsPerLFNEntry + p) 0 = units.getD p 0

theorem length_extractChars (e : Dirent) : (extractChars e).length = charsPerLFNEntry := rfl

theorem lastOffset_lt (chars : List UInt16) : lastOffset chars < charsPerLFNEntry := by
  have h := lastChar_le chars (charsPerLFNEntry - 1)
  have h13 : charsPerLFNEntry = 13 := rfl
  unfold lastOffset
  dsimp only
  split <;> omega

theorem length_take_last (e : Dirent) :
    ((extractChars e).take (lastOffset (extractChars e) + 1)).length = lastOffset (extractChars e) + 1 := by
  rw [List.length_take, length_extractChars]
  exact Nat.min_eq_left (lastOffset_lt _)

/-- A last part that is accepted has been read; one that is not leaves no name. -/
theorem applyLast_reads (hflag : e.ordinal &&& directoryEntryLastLFNBit ≠ 0)
    (hord : (e.ordinal &&& ~~~directoryEntryLastLFNBit).toNat = i + 1) (htype : e.type = 0)
    (hlen : i * charsPerLFNEntry + lastOffset (extractChars e) + 1 ≤ maxLFNNameLength) :
    (empty.applyLastLFNEntry e).2.Reads e.checksum i
      ((extractChars e).take (lastOffset (extractChars e) + 1)) := by
  have hi : i < 20 := by
    change i * 13 + _ + 1 ≤ 255 at hlen
    omega
  rw [applyLast_eq hflag hord hi htype hlen]
  refine ⟨?_, hlen, rfl, rfl, fun p hp => ?_⟩
  · rw [length_take_last, Nat.add_assoc]
  · rw [length_take_last] at hp
    have h13 : i * charsPerLFNEntry = i * 13 := rfl
    have hmax : maxLFNNameLength = 255 := rfl
    rw [getD_copyChars (by omega), if_pos (Nat.le_add_right _ _), Nat.add_sub_cancel_left,
      List.getD_eq_getElem _ _ (by rwa [length_take_last]), List.getD_eq_getElem _ _ (by rwa [length_take_last])]

theorem applyLast_cases (hlast : e.isLastLFNEntry = true) : (empty.applyLastLFNEntry e).2.length = 0 ∨
    ∃ i, (e.ordinal &&& ~~~directoryEntryLastLFNBit).toNat = i + 1 ∧ e.type = 0 ∧
      i * charsPerLFNEntry + lastOffset (extractChars e) + 1 ≤ maxLFNNameLength := by
  rw [Dirent.isLastLFNEntry, Bool.and_eq_true, bne_iff_ne] at hlast
  rw [applyLastLFNEntry, if_neg hlast.2]
  dsimp only
  split
  · exact .inl rfl
  · next hrange =>
    obtain ⟨-, hmin⟩ := not_or.mp hrange
    have hpos : (e.ordinal &&& ~~~directoryEntryLastLFNBit).toNat - 1 + 1 =
        (e.ordinal &&& ~~~directoryEntryLastLFNBit).toNat := Nat.sub_add_cancel (not_lt.mp hmin)
    split
    · exact .inl rfl
    · next htype =>
      by_cases hlen : ((e.ordinal &&& ~~~directoryEntryLastLFNBit).toNat - 1) * charsPerLFNEntry +
          lastOffset (extractChars e) + 1 ≤ maxLFNNameLength
      · exact .inr ⟨_, hpos.symm, not_not.mp htype, hlen⟩
      · exact .inl (congrArg (fun r : Bool × LfnState => r.2.length) (if_pos (not_le.mp hlen)))

/-- What it takes for a part that is not the last one to be accepted. -/
theorem applyLFNEntry_accepts {r : Bool × LfnState} (h : s.applyLFNEntry e = .ok r) (hr : r.1 = true) :
    ∃ i, s.ordinal = i + 1 ∧ e.ordinal.toNat = i + 1 ∧ e.type = 0 ∧ e.checksum = s.checksum ∧
      r.2 = ⟨copyChars s.lfn (i * charsPerLFNEntry) (extractChars e), s.length, i, s.checksum⟩ := by
  rw [applyLFNEntry] at h
  split at h
  · obtain rfl := Except.ok.inj h
    exact absurd hr Bool.false_ne_true
  split at h
  · obtain rfl := Except.ok.inj h
    exact absurd hr Bool.false_ne_true
  split at h
  · obtain rfl := Except.ok.inj h
    exact absurd hr Bool.false_ne_true
  split at h
  · obtain rfl := Except.ok.inj h
    exact absurd hr Bool.false_ne_true
  split at h
  · cases h
  next hord htype hsum hfits =>
  obtain rfl := Except.ok.inj h
  obtain ⟨i, hi⟩ := Nat.exists_eq_succ_of_ne_zero (not_or.mp hfits).1
  refine ⟨i, hi, (not_not.mp hord).trans hi, not_not.mp htype, not_not.mp hsum, ?_⟩
  rw [hi, Nat.succ_sub_one]

theorem Reads.part (e : Dirent) (hs : s.Reads sum (i + 1) units) :
    Reads ⟨copyChars s.lfn (i * charsPerLFNEntry) (extractChars e), s.length, i, s.checksum⟩ sum i
      (extractChars e ++ units) := by
  have hlen := hs.length
  have hmax : s.length ≤ 255 := hs.le
  have h13 : (i + 1) * charsPerLFNEntry = i * charsPerLFNEntry + 13 := by rw [Nat.add_one_mul]; rfl
  have hchars : (extractChars e).length = 13 := rfl
  refine ⟨?_, hs.le, rfl, hs.checksum, fun p hp => ?_⟩
  · rw [List.length_append, hchars, ← Nat.add_assoc, ← h13]
    exact hlen
  · rw [List.length_append, hchars] at hp
    rw [getD_copyChars (by omega), if_pos (Nat.le_add_right _ _), Nat.add_sub_cancel_left]
    by_cases hpart : p < 13
    · rw [List.getD_eq_getElem _ _ (by rwa [hchars]), List.getD_append _ _ _ _ (by rwa [hchars]),
        List.getD_eq_getElem _ _ (by rwa [hchars])]
    · have hcontent := hs.content (p - 13) (by omega)
      have hpos : (i + 1) * charsPerLFNEntry + (p - 13) = i * charsPerLFNEntry + p := by omega
      rw [hpos] at hcontent
      rw [List.getD_eq_default _ _ (by rw [hchars]; omega), List.getD_append_right _ _ _ _ (by rw [hchars]; omega), hchars]
      exact hcontent

/-! ## The name -/

theorem chars_length (hs : s.length ≤ 255) : s.chars.length = s.length := by
  simp [chars, hs]

theorem Reads.chars_eq (hs : s.Reads sum 0 units) : s.chars = units := by
  have hle : s.length ≤ 255 := hs.le
  have hlen := hs.length
  rw [Nat.zero_mul, Nat.zero_add] at hlen
  apply List.ext_getElem
  · rw [chars_length hle, hlen]
  · intro p hp hp'
    have h := hs.content p hp'
    rw [List.getD_eq_getElem _ _ hp', Nat.zero_mul, Nat.zero_add] at h
    rw [← h]
    simp [chars, Vector.getD, show p < 255 by omega]

theorem chars_succ {m : Nat} (hm : m < 255) (lfn : Vector UInt16 255) :
    lfn.toList.take (m + 1) = lfn.toList.take m ++ [lfn.getD m 0] := by
  rw [List.take_add_one]
  simp [Vector.getD, hm]

theorem trimPadding_eq {m : Nat} (hm : m ≤ 255) (lfn : Vector UInt16 255) :
    (lfn.toList.take m).rdropWhile (· == 0xFFFF) = lfn.toList.take (trimPadding lfn m) := by
  induction m with
  | zero => simp [trimPadding]
  | succ m ih =>
      rw [chars_succ (by omega), trimPadding]
      by_cases h : lfn.getD m 0 = 0xFFFF
      · rw [if_pos h, List.rdropWhile_concat_pos _ _ _ (by simpa using h), ih (by omega)]
      · rw [if_neg h, List.rdropWhile_concat_neg _ _ _ (by simpa using h), chars_succ (by omega)]

/-- The length that `validateShortNameEntry` leaves. -/
def trimmedLength (lfn : Vector UInt16 255) (length : Nat) : Nat :=
  let length := trimPadding lfn length
  if length > 0 ∧ lfn.getD (length - 1) 0 = 0 then length - 1 else length

theorem trimName_chars {m : Nat} (hm : m ≤ 255) (lfn : Vector UInt16 255) :
    trimName (lfn.toList.take m) = lfn.toList.take (trimmedLength lfn m) := by
  have hle := trimPadding_le lfn m
  rw [trimName, trimmedLength, trimPadding_eq hm]
  cases hk : trimPadding lfn m with
  | zero => simp
  | succ k =>
      rw [Nat.add_sub_cancel, chars_succ (by omega), List.getLast?_concat, List.dropLast_concat]
      by_cases h : lfn.getD k 0 = 0
      · rw [if_pos (congrArg some h), if_pos ⟨Nat.succ_pos k, h⟩]
      · rw [if_neg fun hn => h (Option.some.inj hn), if_neg fun hn => h hn.2, chars_succ (by omega)]

theorem take_eq_singleton_iff {m : Nat} (hm : m ≤ 255) (lfn : Vector UInt16 255) (c : UInt16) :
    lfn.toList.take m = [c] ↔ m = 1 ∧ lfn.getD 0 0 = c := by
  constructor
  · intro h
    have hlen := congrArg List.length h
    rw [List.length_take, Vector.length_toList, Nat.min_eq_left hm] at hlen
    obtain rfl : m = 1 := hlen
    rw [chars_succ (by decide)] at h
    exact ⟨rfl, by simpa using h⟩
  · rintro ⟨rfl, hc⟩
    rw [chars_succ (by decide), hc]
    rfl

theorem take_eq_nil_iff' {m : Nat} (lfn : Vector UInt16 255) : lfn.toList.take m = [] ↔ m = 0 := by
  constructor
  · intro h
    have hlen := congrArg List.length h
    rw [List.length_take, Vector.length_toList, List.length_nil] at hlen
    omega
  · rintro rfl
    rfl

theorem trimmedLength_le (lfn : Vector UInt16 255) (m : Nat) : trimmedLength lfn m ≤ m := by
  have := trimPadding_le lfn m
  unfold trimmedLength
  dsimp only
  split <;> omega

theorem acceptable_iff (hs : s.length ≤ 255) : Acceptable s.chars ↔
    ¬ (trimmedLength s.lfn s.length = 0 ∨ (trimmedLength s.lfn s.length = 1 ∧
      (s.lfn.getD 0 0 = 0 ∨ s.lfn.getD 0 0 = 0xFFFF))) := by
  have hle : trimmedLength s.lfn s.length ≤ 255 := (trimmedLength_le s.lfn s.length).trans hs
  rw [Acceptable, chars, trimName_chars hs, Ne, Ne, Ne, take_eq_nil_iff', take_eq_singleton_iff hle,
    take_eq_singleton_iff hle]
  tauto

theorem trimmedLength_pos (hs : s.length ≤ 255) (h : Acceptable s.chars) : 0 < trimmedLength s.lfn s.length :=
  Nat.pos_of_ne_zero (not_or.mp ((acceptable_iff hs).mp h)).1

/-- The entry gets the name exactly if the name is complete, has the entry's checksum and is not padding. -/
theorem validate_eq (hs : s.length ≤ 255) (e : Dirent) : s.validateShortNameEntry e =
    if s.ordinal ≠ 0 ∨ shortNameChecksum e ≠ s.checksum then (false, s)
    else (decide (Acceptable s.chars), { s with length := trimmedLength s.lfn s.length }) := by
  rw [validateShortNameEntry]
  by_cases hord : s.ordinal = 0
  · by_cases hsum : shortNameChecksum e = s.checksum
    · have hnot : ¬ (s.ordinal ≠ 0 ∨ shortNameChecksum e ≠ s.checksum) :=
        not_or.mpr ⟨not_not.mpr hord, not_not.mpr hsum⟩
      rw [if_neg (not_not.mpr hord), if_neg (not_not.mpr hsum), if_neg hnot]
      by_cases hacc : Acceptable s.chars
      · rw [decide_eq_true hacc]
        exact if_neg ((acceptable_iff hs).mp hacc)
      · rw [decide_eq_false hacc]
        exact if_pos (not_not.mp fun h => hacc ((acceptable_iff hs).mpr h))
    · rw [if_neg (not_not.mpr hord), if_pos hsum, if_pos (.inr hsum)]
  · rw [if_pos hord, if_pos (.inl hord)]

/-! ## The entries that a state comes from -/

theorem scan_skipped (h : s.scan e = .ok (.skipped s')) : ¬ e.IsEnd ∧ (s' = empty ∨
    ¬ e.IsUnused ∧ e.isLFNEntry = true ∧
      (e.isLastLFNEntry = true ∧ s' = (empty.applyLastLFNEntry e).2 ∨
        e.isLastLFNEntry = false ∧ ∃ r, s.applyLFNEntry e = .ok r ∧ r.1 = true ∧ s' = r.2)) := by
  rw [scan] at h
  split at h
  · cases h
  next hend =>
  refine ⟨hend, ?_⟩
  split at h
  · obtain rfl := Scan.skipped.inj (Except.ok.inj h)
    exact .inl rfl
  next hused =>
  split at h
  · next hlong =>
    split at h
    · next hlast =>
      obtain rfl := Scan.skipped.inj (Except.ok.inj h)
      exact .inr ⟨hused, hlong, .inl ⟨hlast, rfl⟩⟩
    · next hlast =>
      cases hr : s.applyLFNEntry e with
      | error f =>
          rw [hr] at h
          cases h
      | ok r =>
          rw [hr] at h
          obtain rfl := Scan.skipped.inj (Except.ok.inj h)
          cases hacc : r.1 with
          | false => exact .inl rfl
          | true => exact .inr ⟨hused, hlong, .inr ⟨Bool.not_eq_true _ ▸ hlast, r, rfl, hacc, rfl⟩⟩
  · split at h <;> cases h

theorem scan_found (h : s.scan e = .ok (.found s')) : e.IsShort ∧ (s.length = 0 ∧ s' = s ∨
    s.length > 0 ∧ s' = if (s.validateShortNameEntry e).1 then (s.validateShortNameEntry e).2 else empty) := by
  rw [scan] at h
  split at h
  · cases h
  next hend =>
  split at h
  · cases h
  next hused =>
  split at h
  · split at h
    · cases h
    · cases hr : s.applyLFNEntry e with
      | error f =>
          rw [hr] at h
          cases h
      | ok r =>
          rw [hr] at h
          cases h
  next hlong =>
  refine ⟨⟨hend, hused, Bool.not_eq_true _ ▸ hlong⟩, ?_⟩
  split at h
  · next hpos =>
    exact .inr ⟨hpos, (Scan.found.inj (Except.ok.inj h)).symm⟩
  · next hzero =>
    exact .inl ⟨Nat.eq_zero_of_not_pos hzero, (Scan.found.inj (Except.ok.inj h)).symm⟩

/-- Where the long name in the state is from, after the entries `front`. A name that was given to a short entry is
kept for the next one. -/
inductive Tracks (front : List Dirent) (s : LfnState) : Prop
  | none : s.length = 0 → Tracks front s
  | run {before run : List Dirent} {units : List UInt16} {sum : UInt8} {i : Nat} : front = before ++ run →
      LfnRun sum i run units → s.Reads sum i units → Tracks front s
  | kept {before run shorts : List Dirent} {units : List UInt16} {sum : UInt8} : front = before ++ run ++ shorts →
      LfnRun sum 0 run units → units.length ≤ maxLFNNameLength → shorts ≠ [] →
      (∀ e ∈ shorts, e.IsShort ∧ shortNameChecksum e = sum) → Acceptable units →
      (shorts.length = 1 → s.chars = trimName units) → (1 < shorts.length → Acceptable (trimName units)) →
      s.ordinal = 0 → s.checksum = sum → s.length ≤ 255 → Tracks front s

theorem tracks_skipped {front : List Dirent} (hs : Tracks front s) (h : s.scan e = .ok (.skipped s')) :
    Tracks (front ++ [e]) s' := by
  obtain ⟨hend, rfl | ⟨hused, hlong, ⟨hlast, rfl⟩ | ⟨hlast, r, hr, hacc, rfl⟩⟩⟩ := scan_skipped h
  · exact .none rfl
  · rcases applyLast_cases hlast with hzero | ⟨i, hord, htype, hlen⟩
    · exact .none hzero
    · have hflag : e.ordinal &&& directoryEntryLastLFNBit ≠ 0 := by
        rw [Dirent.isLastLFNEntry, Bool.and_eq_true, bne_iff_ne] at hlast
        exact hlast.2
      exact .run rfl (.last ⟨hend, hused, hlong, htype, rfl⟩ hlast hord) (applyLast_reads hflag hord htype hlen)
  · obtain ⟨i, hi, hord, htype, hsum, hstate⟩ := applyLFNEntry_accepts hr hacc
    rw [hstate]
    cases hs with
    | none hzero => exact .none hzero
    | run hfront hrun hreads =>
        obtain rfl := hreads.ordinal.symm.trans hi
        refine .run (by rw [hfront, List.append_assoc]) (.part hrun ?_ hlast hord) (hreads.part e)
        exact ⟨hend, hused, hlong, htype, hsum.trans hreads.checksum⟩
    | kept _ _ _ _ _ _ _ _ hzero _ _ => exact absurd (hi.symm.trans hzero) (Nat.succ_ne_zero i)

/-- What it takes for a short entry to get a name. -/
theorem validate_accepts (hs : s.length ≤ 255) (h : (s.validateShortNameEntry e).1 = true) :
    s.ordinal = 0 ∧ shortNameChecksum e = s.checksum ∧ Acceptable s.chars ∧
      (s.validateShortNameEntry e).2 = { s with length := trimmedLength s.lfn s.length } := by
  rw [validate_eq hs] at h ⊢
  split at h
  · exact absurd h Bool.false_ne_true
  · next hnot =>
    obtain ⟨hord, hsum⟩ := not_or.mp hnot
    rw [if_neg hnot]
    exact ⟨not_not.mp hord, not_not.mp hsum, of_decide_eq_true h, rfl⟩

theorem chars_trimmed (hs : s.length ≤ 255) :
    chars { s with length := trimmedLength s.lfn s.length } = trimName s.chars := (trimName_chars hs s.lfn).symm

theorem Tracks.length_le {front : List Dirent} (hs : Tracks front s) : s.length ≤ 255 := by
  cases hs with
  | none hzero => omega
  | run _ _ hreads => exact hreads.le
  | kept _ _ _ _ _ _ _ _ _ _ hle => exact hle

theorem tracks_found {front : List Dirent} (hs : Tracks front s) (h : s.scan e = .ok (.found s')) :
    Tracks (front ++ [e]) s' := by
  obtain ⟨hshort, ⟨hzero, rfl⟩ | ⟨hpos, rfl⟩⟩ := scan_found h
  · exact .none hzero
  cases hvalid : (s.validateShortNameEntry e).1 with
  | false => exact .none rfl
  | true =>
      have hle := hs.length_le
      obtain ⟨hord, hsum, hacc, hstate⟩ := validate_accepts hle hvalid
      rw [if_pos rfl, hstate]
      have hle' := (trimmedLength_le s.lfn s.length).trans hle
      cases hs with
      | none hzero => omega
      | run hfront hrun hreads =>
          obtain rfl := hreads.ordinal.symm.trans hord
          have hlen : s.length = _ := hreads.length
          rw [Nat.zero_mul, Nat.zero_add] at hlen
          rw [hreads.chars_eq] at hacc
          refine .kept (by rw [hfront]) hrun (hlen ▸ hreads.le) (List.cons_ne_nil e []) ?_ hacc (fun _ => ?_)
            (fun hlt => absurd hlt (lt_irrefl 1)) hord hreads.checksum hle'
          · intro x hx
            obtain rfl := List.mem_singleton.mp hx
            exact ⟨hshort, hsum.trans hreads.checksum⟩
          · rw [chars_trimmed hle, hreads.chars_eq]
      | kept hfront hrun hfits hne hshorts haccept hname hnext hzero hchecksum _ =>
          have hpos' := List.length_pos_of_ne_nil hne
          refine .kept (by rw [hfront, List.append_assoc]) hrun hfits (by simp) ?_ haccept
            (fun hone => ?_) (fun _ => ?_) hord hchecksum hle'
          · intro x hx
            rcases List.mem_append.mp hx with hx | hx
            · exact hshorts x hx
            · obtain rfl := List.mem_singleton.mp hx
              exact ⟨hshort, hsum.trans hchecksum⟩
          · rw [List.length_append, List.length_singleton] at hone
            omega
          · rcases Nat.lt_or_eq_of_le (Nat.succ_le_of_lt hpos') with hlt | hone
            · exact hnext hlt
            · exact hname hone.symm ▸ hacc

theorem process_cons (s : LfnState) (e : Dirent) (es : List Dirent) (hend : ¬ e.IsEnd)
    (h : s.process (e :: es) = .ok s') :
    ∃ t, (s.scan e = .ok (.skipped t) ∨ s.scan e = .ok (.found t)) ∧ t.process es = .ok s' := by
  rw [process] at h
  cases hr : s.scan e with
  | error f =>
      rw [hr] at h
      cases h
  | ok r =>
      rw [hr] at h
      cases r with
      | finished =>
          rw [scan, if_neg hend] at hr
          split at hr
          · cases hr
          split at hr
          · split at hr
            · cases hr
            · cases ha : s.applyLFNEntry e <;> rw [ha] at hr <;> cases hr
          · split at hr <;> cases hr
      | skipped t => exact ⟨t, .inl rfl, h⟩
      | found t => exact ⟨t, .inr rfl, h⟩

theorem tracks_process {front es : List Dirent} (hs : Tracks front s) (hend : ∀ e ∈ es, ¬ e.IsEnd)
    (h : s.process es = .ok s') : Tracks (front ++ es) s' := by
  induction es generalizing front s with
  | nil =>
      obtain rfl := Except.ok.inj h
      rwa [List.append_nil]
  | cons e es ih =>
      obtain ⟨t, hscan, hrest⟩ := process_cons s e es (hend e List.mem_cons_self) h
      have ht : Tracks (front ++ [e]) t := hscan.elim (tracks_skipped hs) (tracks_found hs)
      have hall := ih ht (fun x hx => hend x (List.mem_cons_of_mem _ hx)) hrest
      rwa [List.append_assoc] at hall

theorem process_append {es ds : List Dirent} (hend : ∀ e ∈ es, ¬ e.IsEnd) (h : s.process es = .ok s') :
    s.process (es ++ ds) = s'.process ds := by
  induction es generalizing s with
  | nil =>
      obtain rfl := Except.ok.inj h
      rfl
  | cons e es ih =>
      obtain ⟨t, hscan, hrest⟩ := process_cons s e es (hend e List.mem_cons_self) h
      have hih := ih (fun x hx => hend x (List.mem_cons_of_mem _ hx)) hrest
      rw [List.cons_append, process]
      rcases hscan with hscan | hscan <;> rw [hscan] <;> exact hih

/-! ## The run read from its entries -/

theorem applyLFNEntry_part {e : Dirent} (hs : s.Reads sum (i + 1) units) (he : e.IsPart sum)
    (hlast : e.isLastLFNEntry = false) (hord : e.ordinal.toNat = i + 1) : s.applyLFNEntry e =
      .ok (true, ⟨copyChars s.lfn (i * charsPerLFNEntry) (extractChars e), s.length, i, s.checksum⟩) := by
  have hflag : ¬ e.ordinal &&& directoryEntryLastLFNBit ≠ 0 := by
    rw [Dirent.isLastLFNEntry, he.long, Bool.true_and, bne_eq_false_iff_eq] at hlast
    exact not_not.mpr hlast
  have hlen := hs.length
  have hmax := hs.le
  have h13 : (i + 1) * charsPerLFNEntry = i * charsPerLFNEntry + charsPerLFNEntry := Nat.succ_mul i _
  have hfits : ¬ (s.ordinal = 0 ∨ (s.ordinal - 1) * charsPerLFNEntry + charsPerLFNEntry > maxLFNNameLength) := by
    rw [hs.ordinal, Nat.add_sub_cancel]
    omega
  rw [applyLFNEntry, if_neg hflag, if_neg (not_not.mpr (hord.trans hs.ordinal.symm)), if_neg (not_not.mpr he.type),
    if_neg (not_not.mpr (he.checksum.trans hs.checksum.symm)), if_neg hfits, hs.ordinal, Nat.add_sub_cancel]

theorem scan_last_reads {e : Dirent} (he : e.IsPart sum) (hlast : e.isLastLFNEntry = true)
    (hord : (e.ordinal &&& ~~~directoryEntryLastLFNBit).toNat = i + 1)
    (hlen : i * charsPerLFNEntry + lastOffset (extractChars e) + 1 ≤ maxLFNNameLength) (s : LfnState) :
    ∃ t, s.scan e = .ok (.skipped t) ∧
      t.Reads sum i ((extractChars e).take (lastOffset (extractChars e) + 1)) := by
  have hflag : e.ordinal &&& directoryEntryLastLFNBit ≠ 0 := by
    rw [Dirent.isLastLFNEntry, Bool.and_eq_true, bne_iff_ne] at hlast
    exact hlast.2
  refine ⟨(empty.applyLastLFNEntry e).2, ?_, he.checksum ▸ applyLast_reads hflag hord he.type hlen⟩
  rw [scan, if_neg he.not_end, if_neg he.used, if_pos he.long, if_pos hlast]

theorem process_singleton {t : LfnState} (h : s.scan e = .ok (.skipped t) ∨ s.scan e = .ok (.found t)) :
    s.process [e] = .ok t := by
  rw [process]
  rcases h with h | h <;> rw [h] <;> rfl

theorem process_run {es : List Dirent} (h : LfnRun sum i es units) (s : LfnState)
    (hlen : i * charsPerLFNEntry + units.length ≤ maxLFNNameLength) :
    ∃ t, s.process es = .ok t ∧ t.Reads sum i units := by
  induction h with
  | last he hlast hord =>
      rw [length_take_last, ← Nat.add_assoc] at hlen
      obtain ⟨t, ht, hreads⟩ := scan_last_reads he hlast hord hlen s
      exact ⟨t, process_singleton (.inl ht), hreads⟩
  | @part i es e units hrun he hlast hord ih =>
      have hchars : (extractChars e).length = charsPerLFNEntry := rfl
      have h13 : (i + 1) * charsPerLFNEntry = i * charsPerLFNEntry + charsPerLFNEntry := Nat.succ_mul i _
      rw [List.length_append, hchars, ← Nat.add_assoc, ← h13] at hlen
      obtain ⟨t, ht, hreads⟩ := ih hlen
      refine ⟨_, ?_, hreads.part e⟩
      rw [process_append (fun x hx => (hrun.isPart x hx).not_end) ht]
      apply process_singleton
      left
      rw [scan, if_neg he.not_end, if_neg he.used, if_pos he.long, if_neg (by rw [hlast]; exact Bool.false_ne_true),
        applyLFNEntry_part hreads he hlast hord]
      rfl

/-- A short entry takes the name that has been read, and the state keeps what is left of it. -/
theorem scan_short_named (hle : s.length ≤ 255) (hshort : e.IsShort) (hord : s.ordinal = 0)
    (hsum : shortNameChecksum e = s.checksum) (hacc : Acceptable s.chars) (hpos : 0 < s.length) :
    s.scan e = .ok (.found { s with length := trimmedLength s.lfn s.length }) := by
  have hnot : ¬ (s.ordinal ≠ 0 ∨ shortNameChecksum e ≠ s.checksum) := not_or.mpr ⟨not_not.mpr hord, not_not.mpr hsum⟩
  rw [scan, if_neg hshort.1, if_neg hshort.2.1, if_neg (by rw [hshort.2.2]; exact Bool.false_ne_true), if_pos hpos,
    validate_eq hle, if_neg hnot, decide_eq_true hacc]
  rfl

end LfnState

open LfnState

/-- The enumeration of a directory with the entries `front` up to the short entry `e` gives that one a long name. -/
def AttachesTo (front : List Dirent) (e : Dirent) (name : List UInt16) : Prop :=
  (∀ x ∈ front, ¬ x.IsEnd) ∧ ∃ s s', LfnState.empty.process front = .ok s ∧ s.scan e = .ok (.found s') ∧
    0 < s'.length ∧ name = s'.chars

/-- Each long name is that of a complete run of parts directly in front of the short entry. -/
def LongNamesRight (es : List Dirent) : Prop :=
  ∀ front e after name, es = front ++ e :: after → AttachesTo front e name →
    ∃ before run units, front = before ++ run ∧ LfnRun (shortNameChecksum e) 0 run units ∧ name = trimName units

/-- A complete run is followed by two short entries with its checksum, and the name is acceptable for both. -/
def SharesName (es : List Dirent) : Prop :=
  ∃ before run units e e' after, es = before ++ run ++ e :: e' :: after ∧
    ((∀ x ∈ before, ¬ x.IsEnd) ∧ ¬ Overruns before) ∧
    (LfnRun (shortNameChecksum e) 0 run units ∧ units.length ≤ maxLFNNameLength) ∧
    (e.IsShort ∧ e'.IsShort ∧ shortNameChecksum e' = shortNameChecksum e) ∧
    Acceptable units ∧ Acceptable (trimName units)

theorem SharesName.append {es : List Dirent} (h : SharesName es) (ds : List Dirent) : SharesName (es ++ ds) := by
  obtain ⟨before, run, units, e, e', after, rfl, hrest⟩ := h
  refine ⟨before, run, units, e, e', after ++ ds, ?_, hrest⟩
  rw [List.append_assoc, List.cons_append, List.cons_append]

theorem not_overruns_of_process {es : List Dirent} {s : LfnState} (h : LfnState.empty.process es = .ok s) :
    ¬ Overruns es := by
  intro ho
  have herror := (process_spec reachable_empty es).1 (.inl ho)
  rw [h] at herror
  cases herror

theorem process_of_not_overruns {es : List Dirent} (h : ¬ Overruns es) :
    ∃ s, LfnState.empty.process es = .ok s := by
  have hfails : ¬ LfnState.empty.Fails es := fun hf => h (hf.resolve_right fun ⟨sum, ha, _⟩ => not_armed_empty sum ha)
  obtain ⟨s, hs, -⟩ := (process_spec reachable_empty es).2 hfails
  exact ⟨s, hs⟩

theorem attachesTo_cases {front : List Dirent} {e : Dirent} {name : List UInt16} (h : AttachesTo front e name) :
    (∃ before run units, front = before ++ run ∧ LfnRun (shortNameChecksum e) 0 run units ∧ name = trimName units) ∨
      SharesName (front ++ [e]) := by
  obtain ⟨hend, s, s', hprocess, hscan, hpos, rfl⟩ := h
  have hover := not_overruns_of_process hprocess
  have htracks : Tracks front s := tracks_process (.none rfl : Tracks [] empty) hend hprocess
  have hle := htracks.length_le
  obtain ⟨hshort, ⟨hzero, rfl⟩ | ⟨-, rfl⟩⟩ := scan_found hscan
  · omega
  cases hvalid : (s.validateShortNameEntry e).1 with
  | false =>
      rw [hvalid] at hpos
      exact absurd hpos (lt_irrefl 0)
  | true =>
      obtain ⟨hord, hsum, hacc, hstate⟩ := validate_accepts hle hvalid
      rw [if_pos rfl, hstate, chars_trimmed hle]
      rw [hvalid, if_pos rfl, hstate] at hpos
      cases htracks with
      | none hzero =>
          have := trimmedLength_le s.lfn s.length
          change 0 < trimmedLength s.lfn s.length at hpos
          omega
      | run hfront hrun hreads =>
          obtain rfl := hreads.ordinal.symm.trans hord
          rw [hreads.chars_eq]
          exact .inl ⟨_, _, _, hfront, (hsum.trans hreads.checksum) ▸ hrun, rfl⟩
      | @kept before run shorts units sum hfront hrun hfits hne hshorts haccept hname hnext _ hchecksum _ =>
          right
          rw [hfront] at hend hover
          have hbefore : (∀ x ∈ before, ¬ x.IsEnd) ∧ ¬ Overruns before := by
            rw [List.append_assoc] at hend hover
            exact ⟨fun x hx => hend x (List.mem_append_left _ hx), fun ho => hover (ho.append _)⟩
          obtain ⟨x, xs, rfl⟩ := List.exists_cons_of_ne_nil hne
          obtain ⟨hx, rfl⟩ := hshorts x List.mem_cons_self
          cases xs with
          | nil =>
              refine ⟨before, run, units, x, e, [], ?_, hbefore, ⟨hrun, hfits⟩, ⟨hx, hshort, hsum.trans hchecksum⟩,
                haccept, hname rfl ▸ hacc⟩
              rw [hfront, List.append_assoc _ [x]]
              rfl
          | cons y ys =>
              obtain ⟨hy, hysum⟩ := hshorts y (List.mem_cons_of_mem _ List.mem_cons_self)
              refine ⟨before, run, units, x, y, ys ++ [e], ?_, hbefore, ⟨hrun, hfits⟩, ⟨hx, hy, hysum⟩, haccept,
                hnext (by simp)⟩
              rw [hfront, List.append_assoc _ (x :: y :: ys)]
              rfl

/-- The second of the two short entries gets the name as well. -/
theorem SharesName.attaches {es : List Dirent} (h : SharesName es) :
    ∃ front e e' after name, es = front ++ [e] ++ e' :: after ∧ e.IsShort ∧ AttachesTo (front ++ [e]) e' name := by
  obtain ⟨before, run, units, e, e', after, rfl, ⟨hend, hover⟩, ⟨hrun, hfits⟩, ⟨he, he', hsum⟩, hacc, hacc'⟩ := h
  obtain ⟨s, hs⟩ := process_of_not_overruns hover
  obtain ⟨t, ht, hreads⟩ := process_run hrun s (by rwa [Nat.zero_mul, Nat.zero_add])
  have hle : t.length ≤ 255 := hreads.le
  rw [← hreads.chars_eq] at hacc hacc'
  rw [← chars_trimmed hle] at hacc'
  have hlen := trimmedLength_pos hle hacc
  have hle' := (trimmedLength_le t.lfn t.length).trans hle
  have hfirst := scan_short_named hle he hreads.ordinal hreads.checksum.symm hacc (hlen.trans_le (trimmedLength_le _ _))
  have hsecond := scan_short_named (s := { t with length := trimmedLength t.lfn t.length })
    hle' he' hreads.ordinal (hsum.trans hreads.checksum.symm) hacc' hlen
  have hrunEnd : ∀ x ∈ before ++ run, ¬ x.IsEnd := by
    intro x hx
    rcases List.mem_append.mp hx with hx | hx
    · exact hend x hx
    · exact (hrun.isPart x hx).not_end
  have hprocess : empty.process (before ++ run) = .ok t := (process_append hend hs).trans ht
  refine ⟨before ++ run, e, e', after, _, by simp, he, ?_, _, _, ?_, hsecond,
    trimmedLength_pos (s := { t with length := trimmedLength t.lfn t.length }) hle' hacc', rfl⟩
  · intro x hx
    rcases List.mem_append.mp hx with hx | hx
    · exact hrunEnd x hx
    · obtain rfl := List.mem_singleton.mp hx
      exact he.1
  · exact (process_append hrunEnd hprocess).trans (process_singleton (.inr hfirst))

theorem SharesName.not_longNamesRight {es : List Dirent} (h : SharesName es) : ¬ LongNamesRight es := by
  intro hright
  obtain ⟨front, e, e', after, name, rfl, he, hattaches⟩ := h.attaches
  obtain ⟨before, run, units, hfront, hrun, -⟩ := hright (front ++ [e]) e' after name rfl hattaches
  obtain ⟨init, x, rfl⟩ := (List.eq_nil_or_concat run).resolve_left hrun.ne_nil
  rw [List.concat_eq_append, ← List.append_assoc] at hfront
  obtain rfl : e = x := List.singleton_inj.mp (List.append_inj' hfront rfl).2
  have hlong := (hrun.isPart e (by simp)).long
  rw [he.2.2] at hlong
  exact Bool.false_ne_true hlong

/-- The long names are right exactly if no run is followed by two short entries that it fits. -/
theorem longNamesRight_iff (es : List Dirent) : LongNamesRight es ↔ ¬ SharesName es := by
  constructor
  · exact fun hright hshares => hshares.not_longNamesRight hright
  · intro hnot front e after name hes hattaches
    rcases attachesTo_cases hattaches with hright | hshares
    · exact hright
    · refine absurd ?_ hnot
      have happend := hshares.append after
      rwa [List.append_assoc, List.singleton_append, ← hes] at happend

/-- One part of a name and two short entries with the same short name. -/
theorem longNames_shared : ¬ ∀ es : List Dirent, LongNamesRight es := by
  intro h
  have hpart : (lfnEntry 0x41 (shortNameChecksum ⟨Vector.replicate 32 0x41⟩) (partChars [0x61] 0)).IsPart
      (shortNameChecksum ⟨Vector.replicate 32 0x41⟩) :=
    ⟨by decide +kernel, by decide +kernel, by decide +kernel, rfl, rfl⟩
  have hshares : SharesName _ := ⟨[], _, _, ⟨Vector.replicate 32 0x41⟩, ⟨Vector.replicate 32 0x41⟩, [], rfl,
    ⟨by simp, fun ho => nomatch ho⟩, ⟨.last hpart (by decide +kernel) (by decide +kernel), by decide +kernel⟩,
    ⟨by decide, by decide, rfl⟩, by decide +kernel, by decide +kernel⟩
  exact hshares.not_longNamesRight (h _)

end XviOs.Fat
