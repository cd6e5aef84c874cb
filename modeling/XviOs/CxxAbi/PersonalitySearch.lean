import XviOs.CxxAbi.Personality

namespace XviOs.CxxAbi

open Dwarf

/-- The first record that has a property, and those behind it. -/
def First (P : ActionInfo → Prop) (records : List ActionInfo) (r : ActionInfo) (post : List ActionInfo) : Prop :=
  ∃ pre, records = pre ++ r :: post ∧ (∀ x ∈ pre, ¬ P x) ∧ P r

section First

variable {P Q : ActionInfo → Prop} {records post post' : List ActionInfo} {r r' : ActionInfo}

theorem First.mem (h : First P records r post) : r ∈ records := by
  obtain ⟨pre, rfl, -, -⟩ := h
  simp

theorem first_cons_iff :
    First P (r' :: records) r post ↔ (P r' ∧ r = r' ∧ post = records) ∨ (¬ P r' ∧ First P records r post) := by
  constructor
  · rintro ⟨pre, heq, hpre, hr⟩
    cases pre with
    | nil =>
      obtain ⟨rfl, rfl⟩ := List.cons.inj heq
      exact Or.inl ⟨hr, rfl, rfl⟩
    | cons x pre =>
      obtain ⟨rfl, rfl⟩ := List.cons.inj heq
      exact Or.inr ⟨hpre _ (List.mem_cons_self ..), pre, rfl, fun y hy => hpre y (List.mem_cons_of_mem _ hy), hr⟩
  · rintro (⟨hr', rfl, rfl⟩ | ⟨hr', pre, rfl, hpre, hr⟩)
    · exact ⟨[], rfl, by simp, hr'⟩
    · refine ⟨r' :: pre, rfl, ?_, hr⟩
      intro x hx
      obtain rfl | hx := List.mem_cons.mp hx
      · exact hr'
      · exact hpre x hx

theorem exists_first (h : ∃ r ∈ records, P r) : ∃ r post, First P records r post := by
  induction records with
  | nil =>
    obtain ⟨r, hr, -⟩ := h
    cases hr
  | cons x records ih =>
    by_cases hx : P x
    · exact ⟨x, records, first_cons_iff.mpr (Or.inl ⟨hx, rfl, rfl⟩)⟩
    · obtain ⟨r, hr, hP⟩ := h
      obtain rfl | hr := List.mem_cons.mp hr
      · exact absurd hP hx
      · obtain ⟨r, post, hfirst⟩ := ih ⟨r, hr, hP⟩
        exact ⟨r, post, first_cons_iff.mpr (Or.inr ⟨hx, hfirst⟩)⟩

theorem First.unique (h : First P records r post) (h' : First P records r' post') : r = r' ∧ post = post' := by
  induction records with
  | nil => exact absurd h.mem (List.not_mem_nil)
  | cons x records ih =>
    obtain ⟨hx, rfl, rfl⟩ | ⟨hx, h⟩ := first_cons_iff.mp h
    · obtain ⟨-, rfl, rfl⟩ | ⟨hx', -⟩ := first_cons_iff.mp h'
      · exact ⟨rfl, rfl⟩
      · exact absurd hx hx'
    · obtain ⟨hx', -⟩ | ⟨-, h'⟩ := first_cons_iff.mp h'
      · exact absurd hx' hx
      · exact ih h h'

end First

/-- The call sites that a table lists. -/
inductive CallSites (m : Memory) (info : LsdaHeaderInfo) : BitVec 64 → List CallsiteInfo → Prop
  | done {ptr : BitVec 64} (hend : ¬ ptr - info.calltablePtr < info.calltableSize) : CallSites m info ptr []
  | site {ptr next : BitVec 64} {csinfo : CallsiteInfo} {sites : List CallsiteInfo}
      (hptr : ptr - info.calltablePtr < info.calltableSize)
      (hparse : parseCallSiteInfo m info ptr = some (csinfo, next)) (rest : CallSites m info next sites) :
      CallSites m info ptr (csinfo :: sites)

/-- The action records of a chain. -/
inductive Chain (m : Memory) : BitVec 64 → List ActionInfo → Prop
  | last {ptr : BitVec 64} {action : ActionInfo} (hparse : parseActionTableEntry m ptr = some action)
      (hnext : action.next = 0) : Chain m ptr [action]
  | link {ptr : BitVec 64} {action : ActionInfo} {records : List ActionInfo}
      (hparse : parseActionTableEntry m ptr = some action) (hnext : action.next ≠ 0)
      (rest : Chain m action.next records) : Chain m ptr (action :: records)

/-- The search stops at a site that covers the address, or that is behind it. -/
def CallsiteInfo.stops (csinfo : CallsiteInfo) (pc : BitVec 64) : Bool := csinfo.covers pc || pc < csinfo.rangeStart

/-- What the search gives for the site at which it stops. -/
def CallsiteInfo.found (pc : BitVec 64) (stop : Option CallsiteInfo) : CallsiteInfo :=
  match stop with
  | none => {}
  | some csinfo => if csinfo.covers pc then csinfo else {}

theorem findCallSiteLoop_eq {m : Memory} {info : LsdaHeaderInfo} {ptr : BitVec 64} {sites : List CallsiteInfo}
    (h : CallSites m info ptr sites) (pc : BitVec 64) {fuel : Nat} (hfuel : sites.length < fuel) :
    findCallSiteLoop m info pc fuel ptr = some (CallsiteInfo.found pc (sites.find? (·.stops pc))) := by
  induction h generalizing fuel with
  | done hend =>
    obtain ⟨fuel, rfl⟩ := Nat.exists_eq_add_one_of_ne_zero (Nat.ne_of_gt hfuel)
    simp [findCallSiteLoop, hend, CallsiteInfo.found]
  | @site ptr next csinfo sites hptr hparse rest ih =>
    obtain ⟨fuel, rfl⟩ := Nat.exists_eq_add_one_of_ne_zero (Nat.ne_of_gt (Nat.zero_lt_of_lt hfuel))
    have htail := ih (Nat.lt_of_succ_lt_succ hfuel)
    simp only [findCallSiteLoop, if_pos hptr, hparse]
    by_cases hcovers : csinfo.covers pc = true
    · simp [hcovers, CallsiteInfo.stops, CallsiteInfo.found]
    · by_cases hbehind : pc < csinfo.rangeStart
      · simp [hcovers, hbehind, CallsiteInfo.stops, CallsiteInfo.found]
      · rw [if_neg hcovers, if_neg hbehind, htail, List.find?_cons_of_neg]
        simp [CallsiteInfo.stops, hcovers, hbehind]

theorem findCleanup_eq {m : Memory} {ptr : BitVec 64} {records : List ActionInfo} (h : Chain m ptr records)
    {fuel : Nat} (hfuel : records.length ≤ fuel) :
    findCleanup m fuel ptr = some (records.any fun r => r.typeFilter = 0) := by
  induction h generalizing fuel with
  | last hparse hnext =>
    obtain ⟨fuel, rfl⟩ := Nat.exists_eq_add_one_of_ne_zero (Nat.ne_of_gt hfuel)
    simp only [findCleanup, hparse, hnext, List.any_cons, List.any_nil, Bool.or_false]
    split <;> simp_all
  | link hparse hnext rest ih =>
    obtain ⟨fuel, rfl⟩ := Nat.exists_eq_add_one_of_ne_zero (Nat.ne_of_gt (Nat.zero_lt_of_lt hfuel))
    simp only [findCleanup, hparse, if_neg hnext, ih (Nat.le_of_succ_le_succ hfuel), List.any_cons]
    split <;> simp_all

section Records

variable (m : Memory) (types : TypeInfos) (info : LsdaHeaderInfo) (exceptionObject : BitVec 64)

/-- A catch clause for the type is taken. The null type stands for any. -/
def Catches (catchType : BitVec 64) : Prop :=
  catchType = 0 ∨ (types.typeMatch m catchType (catchObject m types exceptionObject catchType)).isSome

/-- The records at which the search of the code stops. -/
def CodeStops (r : ActionInfo) : Prop :=
  r.typeFilter = 0 ∨
    (0 < r.typeFilter.toInt ∧
      ∃ t, getCatchTypeInfo m info r.typeFilter = some t ∧ Catches m types exceptionObject t)

/-- The types of the pointers that have one size. -/
theorem exists_readPointer {type : DwPtrType} (hu : type ≠ .uleb128) (hs : type ≠ .sleb128) (ptr : BitVec 64) :
    ∃ r, readPointer m type ptr = some r := by
  cases type with
  | uleb128 => exact absurd rfl hu
  | sleb128 => exact absurd rfl hs
  | udata2 | udata4 | udata8 | sdata2 | sdata4 | sdata8 => exact ⟨_, rfl⟩

theorem exists_decodePreservingNull {encoding : BitVec 8} {type : DwPtrType}
    (htype : DwPtrType.ofByte (encoding &&& kDwarfPtrTypeMask) = some type) (hu : type ≠ .uleb128)
    (hs : type ≠ .sleb128) (points : RelativePoints) (ptr : BitVec 64) :
    ∃ r, decodePreservingNull m points encoding ptr = some r := by
  obtain ⟨r, hread⟩ := exists_readPointer m hu hs ptr
  have hno : ¬ (encoding = kDwarfPtrOmit ∨ encoding = kDwarfPtrAbs) := by
    rintro (rfl | rfl) <;> simp [DwPtrType.ofByte, kDwarfPtrOmit, kDwarfPtrAbs, kDwarfPtrTypeMask] at htype
  simp only [decodePreservingNull, hno, if_false, htype, bind, StateT.bind, get, getThe, MonadStateOf.get,
    StateT.get, pure, hread, Option.bind_some]
  by_cases hnull : r.1 = 0
  · exact ⟨_, by rw [if_pos hnull]; rfl⟩
  rw [if_neg hnull]
  cases (DwPtrRel.ofByte (encoding &&& kDwarfPtrRelMask)).bind (points.base ptr) with
  | none => exact ⟨_, by split <;> rfl⟩
  | some base => split <;> exact ⟨_, rfl⟩

theorem exists_decodeTypeEntry {size : BitVec 64} (hsize : entrySize info.typetableEncoding = some size)
    (s index : BitVec 64) : ∃ t, decodeTypeEntry m info s index = some t := by
  obtain ⟨type, htype, hu, hs⟩ : ∃ type,
      DwPtrType.ofByte (info.typetableEncoding &&& kDwarfPtrTypeMask) = some type ∧ type ≠ .uleb128 ∧
        type ≠ .sleb128 := by
    unfold entrySize at hsize
    cases htype : DwPtrType.ofByte (info.typetableEncoding &&& kDwarfPtrTypeMask) with
    | none => simp [htype] at hsize
    | some type => cases type <;> simp_all
  obtain ⟨r, hr⟩ := exists_decodePreservingNull m htype hu hs _ (info.typetablePtr - s * index)
  exact ⟨r.1, by rw [decodeTypeEntry, hr]; rfl⟩

theorem exists_getCatchTypeInfo (index : BitVec 64) : ∃ t, getCatchTypeInfo m info index = some t := by
  unfold getCatchTypeInfo
  cases hsize : entrySize info.typetableEncoding with
  | none => exact ⟨0, rfl⟩
  | some size => exact exists_decodeTypeEntry m info hsize size index

theorem matchAction_of_stops {action : ActionInfo} (h : CodeStops m types info exceptionObject action)
    (actionPtr : BitVec 64) :
    ∃ found m', matchAction m types info exceptionObject actionPtr action = some (some (found, m')) ∧
      found.switchValue = action.typeFilter := by
  unfold matchAction
  obtain h0 | ⟨hpos, t, ht, hcatch⟩ := h
  · exact ⟨_, _, by rw [if_pos h0], h0.symm⟩
  · have h0 : action.typeFilter ≠ 0 := by
      intro h0
      simp [h0] at hpos
    rw [if_neg h0, if_pos hpos, ht]
    by_cases hnull : t = 0
    · exact ⟨_, _, if_pos hnull, rfl⟩
    · obtain ⟨adjusted, hmatch⟩ := Option.isSome_iff_exists.mp (hcatch.resolve_left hnull)
      simp only [if_neg hnull, hmatch]
      split <;> exact ⟨_, _, rfl, rfl⟩

theorem matchAction_of_not_stops {action : ActionInfo} (h : ¬ CodeStops m types info exceptionObject action)
    (actionPtr : BitVec 64) : matchAction m types info exceptionObject actionPtr action = some none := by
  unfold matchAction
  have h0 : action.typeFilter ≠ 0 := fun h0 => h (Or.inl h0)
  rw [if_neg h0]
  split
  case isFalse => rfl
  case isTrue hpos =>
    obtain ⟨t, ht⟩ := exists_getCatchTypeInfo m info action.typeFilter
    have hcatch : ¬ Catches m types exceptionObject t := fun hcatch => h (Or.inr ⟨hpos, t, ht, hcatch⟩)
    have hnull : t ≠ 0 := fun hnull => hcatch (Or.inl hnull)
    have hmatch : types.typeMatch m t (catchObject m types exceptionObject t) = none := by
      rw [← Option.not_isSome_iff_eq_none]
      exact fun hmatch => hcatch (Or.inr hmatch)
    simp only [ht, if_neg hnull, hmatch]

theorem findMatchingActionLoop_none {ptr : BitVec 64} {records : List ActionInfo} (hchain : Chain m ptr records)
    {fuel : Nat} (hfuel : records.length ≤ fuel) (h : ¬ ∃ r ∈ records, CodeStops m types info exceptionObject r) :
    findMatchingActionLoop m types info exceptionObject fuel ptr = some none := by
  induction hchain generalizing fuel with
  | @last ptr action hparse hnext =>
    obtain ⟨fuel, rfl⟩ := Nat.exists_eq_add_one_of_ne_zero (Nat.ne_of_gt hfuel)
    have hno : ¬ CodeStops m types info exceptionObject action := fun hs => h ⟨action, by simp, hs⟩
    simp only [findMatchingActionLoop, hparse, matchAction_of_not_stops m types info exceptionObject hno ptr,
      if_pos hnext]
  | @link ptr action records hparse hnext rest ih =>
    obtain ⟨fuel, rfl⟩ := Nat.exists_eq_add_one_of_ne_zero (Nat.ne_of_gt (Nat.zero_lt_of_lt hfuel))
    have hno : ¬ CodeStops m types info exceptionObject action := fun hs => h ⟨action, by simp, hs⟩
    simp only [findMatchingActionLoop, hparse, matchAction_of_not_stops m types info exceptionObject hno ptr,
      if_neg hnext]
    apply ih (Nat.le_of_succ_le_succ hfuel)
    rintro ⟨r, hr, hs⟩
    exact h ⟨r, List.mem_cons_of_mem _ hr, hs⟩

theorem findMatchingActionLoop_first {ptr : BitVec 64} {records post : List ActionInfo} {r : ActionInfo}
    (hchain : Chain m ptr records) {fuel : Nat} (hfuel : records.length ≤ fuel)
    (h : First (CodeStops m types info exceptionObject) records r post) :
    ∃ found m', findMatchingActionLoop m types info exceptionObject fuel ptr = some (some (found, m')) ∧
      found.switchValue = r.typeFilter := by
  induction hchain generalizing fuel with
  | @last ptr action hparse hnext =>
    obtain ⟨fuel, rfl⟩ := Nat.exists_eq_add_one_of_ne_zero (Nat.ne_of_gt hfuel)
    obtain ⟨hstops, rfl, -⟩ | ⟨-, h⟩ := first_cons_iff.mp h
    · obtain ⟨found, m', hmatch, hvalue⟩ := matchAction_of_stops m types info exceptionObject hstops ptr
      exact ⟨found, m', by simp only [findMatchingActionLoop, hparse, hmatch], hvalue⟩
    · exact absurd h.mem List.not_mem_nil
  | @link ptr action records hparse hnext rest ih =>
    obtain ⟨fuel, rfl⟩ := Nat.exists_eq_add_one_of_ne_zero (Nat.ne_of_gt (Nat.zero_lt_of_lt hfuel))
    obtain ⟨hstops, rfl, -⟩ | ⟨hno, h⟩ := first_cons_iff.mp h
    · obtain ⟨found, m', hmatch, hvalue⟩ := matchAction_of_stops m types info exceptionObject hstops ptr
      exact ⟨found, m', by simp only [findMatchingActionLoop, hparse, hmatch], hvalue⟩
    · simp only [findMatchingActionLoop, hparse, matchAction_of_not_stops m types info exceptionObject hno ptr,
        if_neg hnext]
      exact ih (Nat.le_of_succ_le_succ hfuel) h

end Records

end XviOs.CxxAbi
