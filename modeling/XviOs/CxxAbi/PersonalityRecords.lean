import XviOs.CxxAbi.PersonalitySearch

namespace XviOs.CxxAbi

open Dwarf

/-- A value that an `int` can hold. -/
def IsInt (v : BitVec 64) : Prop := (v.setWidth 32).signExtend 64 = v

theorem isInt_signExtend (x : BitVec 32) : IsInt (x.signExtend 64) := by
  unfold IsInt
  congr 1
  ext i hi
  rw [BitVec.getElem_setWidth, BitVec.getLsbD_signExtend, if_pos hi, BitVec.getLsbD_eq_getElem hi]
  simp [Nat.lt_trans hi]

theorem IsInt.or {v w : BitVec 64} (hv : IsInt v) (hw : IsInt w) : IsInt (v ||| w) := by
  unfold IsInt at *
  rw [BitVec.setWidth_or, BitVec.signExtend_or, hv, hw]

theorem decodeLoop_isInt {ptr : List (BitVec 8)} {value : BitVec 64} {shift : Nat} {s : Decoded} (hvalue : IsInt value)
    (h : decodeLoop ptr value shift = some s) : IsInt s.value := by
  induction ptr generalizing value shift with
  | nil => cases h
  | cons b ptr ih =>
    simp only [decodeLoop] at h
    split at h
    · cases h
    · have hvalue' := hvalue.or (isInt_signExtend ‹_›)
      split at h
      · cases h
        exact hvalue'
      · exact ih hvalue' h

theorem readSLEB128_isInt {m : Memory} {ptr next v : BitVec 64} (h : readSLEB128 m ptr = some (v, next)) :
    IsInt v := by
  simp only [readSLEB128, readLEB128, decodeSLEB128, Option.map_eq_some_iff, Option.bind_eq_some_iff] at h
  obtain ⟨r, ⟨s, hloop, w, hsign, rfl⟩, hr⟩ := h
  cases hr
  have hs : IsInt s.value := decodeLoop_isInt (by rfl) hloop
  unfold signExtendDecoded at hsign
  split at hsign
  · obtain ⟨bits, -, rfl⟩ := Option.map_eq_some_iff.mp hsign
    exact hs.or (isInt_signExtend bits)
  · cases hsign
    exact hs

theorem Chain.isInt {m : Memory} {ptr : BitVec 64} {records : List ActionInfo} (h : Chain m ptr records) :
    ∀ r ∈ records, IsInt r.typeFilter := by
  have hparsed : ∀ {ptr action}, parseActionTableEntry m ptr = some action → IsInt action.typeFilter := by
    intro ptr action hparse
    simp only [parseActionTableEntry, Option.bind_eq_bind, Option.bind_eq_some_iff] at hparse
    obtain ⟨⟨v, base⟩, hread, r, -, hr⟩ := hparse
    cases hr
    exact readSLEB128_isInt hread
  induction h with
  | last hparse hnext => simpa using hparsed hparse
  | link hparse hnext rest ih =>
    intro r hr
    obtain rfl | hr := List.mem_cons.mp hr
    · exact hparsed hparse
    · exact ih r hr

section Records

variable (m : Memory) (types : TypeInfos) (info : LsdaHeaderInfo) (exceptionObject : BitVec 64)

/-- The size of an entry of the type table, which is that of a pointer where the entries are plain pointers. -/
def tableEntrySize (encoding : BitVec 8) : Option (BitVec 64) :=
  if encoding = kDwarfPtrAbs then some 8 else entrySize encoding

/-- The entry of the type table is a clause that catches the exception. -/
def IndexCatches (index : BitVec 64) : Prop :=
  ∃ size t, tableEntrySize info.typetableEncoding = some size ∧ decodeTypeEntry m info size index = some t ∧
    Catches m types exceptionObject t

/-- The indices that an exception specification lists, behind which a zero is. -/
inductive SpecificationList (m : Memory) : BitVec 64 → List (BitVec 64) → Prop
  | nil {ptr next : BitVec 64} (hread : readULEB128 m ptr = some (0, next)) : SpecificationList m ptr []
  | cons {ptr next index : BitVec 64} {indices : List (BitVec 64)} (hread : readULEB128 m ptr = some (index, next))
      (hindex : index ≠ 0) (rest : SpecificationList m next indices) : SpecificationList m ptr (index :: indices)

/-- The specification of a negative filter, which stands behind the type table, allows none of the types that catch
the exception. -/
def Rejects (filter : BitVec 64) : Prop :=
  ∃ indices, SpecificationList m (info.typetablePtr - filter - 1) indices ∧
    ∀ index ∈ indices, ¬ IndexCatches m types info exceptionObject index

/-- A record that handles the exception: a catch record that matches, or a specification that rejects it. -/
def Handles (r : ActionInfo) : Prop :=
  (0 < r.typeFilter.toInt ∧ IndexCatches m types info exceptionObject r.typeFilter) ∨
    (r.typeFilter.toInt < 0 ∧ Rejects m types info exceptionObject r.typeFilter)

/-- Records that decide: those of cleanups, those that handle, and all catch records of a type table whose entries
have no fixed size. -/
def Decides (r : ActionInfo) : Prop :=
  r.typeFilter = 0 ∨ Handles m types info exceptionObject r ∨
    (0 < r.typeFilter.toInt ∧ entrySize info.typetableEncoding = none)

/-- The first record that decides is a catch record that handles, or a cleanup without a handler behind it. -/
def Served (records : List ActionInfo) : Prop :=
  ∀ r post, First (Decides m types info exceptionObject) records r post →
    (0 < r.typeFilter.toInt ∧ Handles m types info exceptionObject r) ∨
      (r.typeFilter = 0 ∧ ∀ x ∈ post, ¬ Handles m types info exceptionObject x)

theorem Handles.ne_zero {r : ActionInfo} (h : Handles m types info exceptionObject r) : r.typeFilter ≠ 0 := by
  intro h0
  obtain ⟨hpos, -⟩ | ⟨hneg, -⟩ := h
  · simp [h0] at hpos
  · simp [h0] at hneg

/-- Only the filter decides whether a record handles. -/
theorem Handles.congr {r r' : ActionInfo} (h : Handles m types info exceptionObject r)
    (hfilter : r.typeFilter = r'.typeFilter) : Handles m types info exceptionObject r' := by
  unfold Handles at *
  rwa [hfilter] at h

theorem getCatchTypeInfo_eq_null (h : entrySize info.typetableEncoding = none) (index : BitVec 64) :
    getCatchTypeInfo m info index = some 0 := by
  rw [getCatchTypeInfo, h]

theorem tableEntrySize_eq {size : BitVec 64} {encoding : BitVec 8} (h : entrySize encoding = some size) :
    tableEntrySize encoding = some size := by
  unfold tableEntrySize
  split
  case isTrue habs =>
    rw [habs] at h
    cases h
  case isFalse => exact h

/-- The code stops at the records that decide, except at the specifications. -/
theorem codeStops_iff {r : ActionInfo} :
    CodeStops m types info exceptionObject r ↔
      Decides m types info exceptionObject r ∧ ¬ r.typeFilter.toInt < 0 := by
  constructor
  · rintro (h0 | ⟨hpos, t, ht, hcatch⟩)
    · exact ⟨Or.inl h0, by simp [h0]⟩
    · refine ⟨Or.inr ?_, not_lt_of_gt hpos⟩
      cases hsize : entrySize info.typetableEncoding with
      | none => exact Or.inr ⟨hpos, rfl⟩
      | some size =>
        rw [getCatchTypeInfo, hsize] at ht
        exact Or.inl (Or.inl ⟨hpos, size, t, tableEntrySize_eq hsize, ht, hcatch⟩)
  · rintro ⟨h0 | (⟨hpos, size, t, hsize, ht, hcatch⟩ | ⟨hneg, -⟩) | ⟨hpos, hsize⟩, hnneg⟩
    · exact Or.inl h0
    · refine Or.inr ⟨hpos, ?_⟩
      cases hfixed : entrySize info.typetableEncoding with
      | none => exact ⟨0, getCatchTypeInfo_eq_null m info hfixed _, Or.inl rfl⟩
      | some size' =>
        obtain rfl := Option.some.inj ((tableEntrySize_eq hfixed).symm.trans hsize)
        exact ⟨t, by rw [getCatchTypeInfo, hfixed]; exact ht, hcatch⟩
    · exact absurd hneg hnneg
    · exact Or.inr ⟨hpos, 0, getCatchTypeInfo_eq_null m info hsize _, Or.inl rfl⟩

/-- The switch value that the code finds in a chain, and the one that it should find. -/
def CodeValue (records : List ActionInfo) (v : BitVec 64) : Prop :=
  ∃ r post, First (CodeStops m types info exceptionObject) records r post ∧ r.typeFilter = v ∧ v ≠ 0

def HandlerValue (records : List ActionInfo) (v : BitVec 64) : Prop :=
  ∃ r post, First (Handles m types info exceptionObject) records r post ∧ r.typeFilter = v

theorem first_codeStops {records post : List ActionInfo} {r : ActionInfo}
    (h : First (Decides m types info exceptionObject) records r post) (hr : ¬ r.typeFilter.toInt < 0) :
    First (CodeStops m types info exceptionObject) records r post := by
  obtain ⟨pre, hrecords, hpre, hdecides⟩ := h
  refine ⟨pre, hrecords, ?_, (codeStops_iff m types info exceptionObject).mpr ⟨hdecides, hr⟩⟩
  exact fun x hx hstops => hpre x hx ((codeStops_iff m types info exceptionObject).mp hstops).1

theorem first_handles {records post : List ActionInfo} {r : ActionInfo}
    (h : First (Decides m types info exceptionObject) records r post) (hr : Handles m types info exceptionObject r) :
    First (Handles m types info exceptionObject) records r post := by
  obtain ⟨pre, hrecords, hpre, -⟩ := h
  exact ⟨pre, hrecords, fun x hx hhandles => hpre x hx (Or.inr (Or.inl hhandles)), hr⟩

theorem codeValue_unique {records : List ActionInfo} {v w : BitVec 64}
    (hv : CodeValue m types info exceptionObject records v) (hw : CodeValue m types info exceptionObject records w) :
    v = w := by
  obtain ⟨r, post, hr, rfl, -⟩ := hv
  obtain ⟨r', post', hr', rfl, -⟩ := hw
  rw [(hr.unique hr').1]

theorem exists_handlerValue {records : List ActionInfo} {r : ActionInfo} (hr : r ∈ records)
    (h : Handles m types info exceptionObject r) : ∃ v, HandlerValue m types info exceptionObject records v := by
  obtain ⟨r', post, hfirst⟩ := exists_first ⟨r, hr, h⟩
  exact ⟨_, r', post, hfirst, rfl⟩

theorem not_codeValue_of_cleanup {records post : List ActionInfo} {r : ActionInfo} {v : BitVec 64}
    (h : First (Decides m types info exceptionObject) records r post) (h0 : r.typeFilter = 0) :
    ¬ CodeValue m types info exceptionObject records v := by
  rintro ⟨r', post', hfirst, rfl, hne⟩
  have hr := first_codeStops m types info exceptionObject h (by simp [h0])
  rw [(hr.unique hfirst).1] at h0
  exact hne h0

theorem codeValue_of_catch {records post : List ActionInfo} {r : ActionInfo}
    (h : First (Decides m types info exceptionObject) records r post) (hpos : 0 < r.typeFilter.toInt) :
    CodeValue m types info exceptionObject records r.typeFilter := by
  refine ⟨r, post, first_codeStops m types info exceptionObject h (not_lt_of_gt hpos), rfl, ?_⟩
  intro h0
  simp [h0] at hpos

theorem served_of_forall_iff {records : List ActionInfo}
    (h : ∀ v, CodeValue m types info exceptionObject records v ↔ HandlerValue m types info exceptionObject records v) :
    Served m types info exceptionObject records := by
  intro r post hfirst
  obtain hneg | h0 | hpos := lt_trichotomy r.typeFilter.toInt 0
  · -- a specification that decides rejects, and is what should be found, but the code does not stop there
    have hr : Handles m types info exceptionObject r := by
      obtain ⟨-, -, -, h0 | hr | ⟨hpos, -⟩⟩ := hfirst
      · simp [h0] at hneg
      · exact hr
      · exact absurd hpos (not_lt_of_gt hneg)
    obtain ⟨r', post', hcode, hfilter, -⟩ :=
      (h r.typeFilter).mpr ⟨r, post, first_handles m types info exceptionObject hfirst hr, rfl⟩
    obtain ⟨-, -, -, hstops⟩ := hcode
    exact absurd (hfilter ▸ hneg) ((codeStops_iff m types info exceptionObject).mp hstops).2
  · have h0 : r.typeFilter = 0 := BitVec.eq_of_toInt_eq (by simpa using h0)
    refine Or.inr ⟨h0, ?_⟩
    intro x hx hhandles
    obtain ⟨pre, hrecords, -⟩ := id hfirst
    have hmem : x ∈ records := by
      rw [hrecords]
      simp [hx]
    obtain ⟨v, hv⟩ := exists_handlerValue m types info exceptionObject hmem hhandles
    exact not_codeValue_of_cleanup m types info exceptionObject hfirst h0 ((h v).mpr hv)
  · obtain ⟨r', post', hfirst', hfilter⟩ := (h _).mp (codeValue_of_catch m types info exceptionObject hfirst hpos)
    obtain ⟨-, -, -, hhandles⟩ := hfirst'
    exact Or.inl ⟨hpos, hhandles.congr m types info exceptionObject hfilter⟩

theorem codeValue_iff_of_served {records : List ActionInfo} (h : Served m types info exceptionObject records)
    (v : BitVec 64) :
    CodeValue m types info exceptionObject records v ↔ HandlerValue m types info exceptionObject records v := by
  by_cases hdecides : ∃ r ∈ records, Decides m types info exceptionObject r
  · obtain ⟨r, post, hfirst⟩ := exists_first hdecides
    obtain ⟨hpos, hhandles⟩ | ⟨h0, hpost⟩ := h r post hfirst
    · have hcode := codeValue_of_catch m types info exceptionObject hfirst hpos
      have hhandler := first_handles m types info exceptionObject hfirst hhandles
      constructor
      · exact fun hv => ⟨r, post, hhandler, codeValue_unique m types info exceptionObject hcode hv⟩
      · rintro ⟨r', post', hfirst', rfl⟩
        rwa [← (hhandler.unique hfirst').1]
    · constructor
      · exact fun hv => absurd hv (not_codeValue_of_cleanup m types info exceptionObject hfirst h0)
      · rintro ⟨r', post', hfirst', -⟩
        obtain ⟨pre, rfl, hpre, -⟩ := hfirst
        have hmem := hfirst'.mem
        obtain ⟨-, -, -, hhandles⟩ := hfirst'
        obtain hmem | hmem := List.mem_append.mp hmem
        · exact absurd (Or.inr (Or.inl hhandles)) (hpre r' hmem)
        · obtain rfl | hmem := List.mem_cons.mp hmem
          · exact absurd h0 (hhandles.ne_zero m types info exceptionObject)
          · exact absurd hhandles (hpost r' hmem)
  · constructor
    · rintro ⟨r, post, hfirst, -⟩
      have hmem := hfirst.mem
      obtain ⟨-, -, -, hstops⟩ := hfirst
      exact absurd ⟨r, hmem, ((codeStops_iff m types info exceptionObject).mp hstops).1⟩ hdecides
    · rintro ⟨r, post, hfirst, -⟩
      have hmem := hfirst.mem
      obtain ⟨-, -, -, hhandles⟩ := hfirst
      exact absurd ⟨r, hmem, Or.inr (Or.inl hhandles)⟩ hdecides

end Records

end XviOs.CxxAbi
