import XviOs.SharedPtr.Shared

namespace XviOs.SharedPtr

open Library.Ownership Library.StateProgram

variable {ι ω : Type} {m : Memory ι ω} {ps : Option ι → Option Handle} {pw : ω → Option Handle} {n k : ℕ}
  {hs hw : List ℕ} {x y : Option ι} {w v : ω} {h h' : Handle} {p q : Option ℕ} {s s' : Option Handle}

theorem addWeakRef_eq (hq : ∀ k ∈ q, m.Alive k) : whenSome q addWeakRef m = some ((), m.incrementWeakAny q) := by
  cases q with
  | none => rfl
  | some k => exact if_pos (hq k rfl)

theorem subWeakRef_eq (hq : ∀ k ∈ q, m.Alive k) : whenSome q subWeakRef m = some ((), m.decrementWeakAny q) := by
  cases q with
  | none => rfl
  | some k => exact if_pos (hq k rfl)

@[simp]
theorem weak_decrementWeakAny (m : Memory ι ω) (q : Option ℕ) : (m.decrementWeakAny q).weak = m.weak := by
  cases q <;> rfl

/-- Some variable that lives has the control block. -/
def Backed (ps : Option ι → Option Handle) (pw : ω → Option Handle) (q : Option ℕ) : Prop :=
  ∀ k ∈ q, (∃ x, ownerOf (ps x) = some k) ∨ ∃ v, ownerOf (pw v) = some k

theorem backed_shared (hx : ps x = some h) : Backed ps pw h.owner := by
  intro k hk
  exact Or.inl ⟨x, by rw [hx]; exact hk⟩

theorem backed_weak (hw : pw w = some h) : Backed ps pw h.owner := by
  intro k hk
  exact Or.inr ⟨w, by rw [hw]; exact hk⟩

theorem Holds.weakRef_pos_of_backed (hm : Holds ps pw n hs hw m) (hq : Backed ps pw q) :
    ∀ k ∈ q, 0 < m.weakRef k := by
  intro k hk
  obtain ⟨x, hx⟩ | ⟨v, hv⟩ := hq k hk
  · exact hm.weakRef_pos (hm.strong_pos_of_owner hx)
  · exact hm.weak_pos_of_owner hv

theorem Holds.alive_of_backed (hm : Holds ps pw n hs hw m) (hq : Backed ps pw q) : ∀ k ∈ q, m.Alive k :=
  fun k hk => hm.alive (hm.weakRef_pos_of_backed hq k hk)

theorem ne_of_some_weak (hw : pw w = none) (hv : pw v = some h) : v ≠ w := by
  rintro rfl
  rw [hw] at hv
  cases hv

variable [DecidableEq ω]

theorem weak_setWeak (m : Memory ι ω) (w : ω) (s : Option Handle) :
    (m.setWeak w s).weak = Function.update m.weak w s := rfl

theorem setWeak_idem (m : Memory ι ω) (w : ω) (s s' : Option Handle) :
    (m.setWeak w s).setWeak w s' = m.setWeak w s' := by
  simp only [Memory.setWeak, Function.update_idem]

theorem setWeak_comm (m : Memory ι ω) (hne : w ≠ v) (s s' : Option Handle) :
    (m.setWeak w s).setWeak v s' = (m.setWeak v s').setWeak w s := by
  simp only [Memory.setWeak, Function.update_comm hne]

theorem incrementWeakAny_setWeak (m : Memory ι ω) (w : ω) (s : Option Handle) (q : Option ℕ) :
    (m.setWeak w s).incrementWeakAny q = (m.incrementWeakAny q).setWeak w s := by
  cases q <;> rfl

theorem decrementWeakAny_setWeak (m : Memory ι ω) (w : ω) (s : Option Handle) (q : Option ℕ) :
    (m.decrementWeakAny q).setWeak w s = (m.setWeak w s).decrementWeakAny q := by
  cases q <;> rfl

theorem storeWeak_eq (hw : m.weak w = some h) : storeWeak w h' m = some ((), m.setWeak w (some h')) := by
  rw [storeWeak, hw]
  rfl

theorem createWeak_eq (hw : m.weak w = none) : createWeak w h m = some ((), m.setWeak w (some h)) := by
  rw [createWeak, hw]
  rfl

theorem removeWeak_eq (hw : m.weak w = some h) : removeWeak w m = some ((), m.setWeak w none) := by
  rw [removeWeak, hw]
  rfl

theorem storeWeakPtr_eq (hw : m.weak w = some h) :
    storeWeakPtr w p m = some ((), m.setWeak w (some ⟨p, h.owner⟩)) := by
  change (loadWeak w m).bind _ = _
  rw [loadWeak_eq hw]
  exact storeWeak_eq hw

theorem storeWeakOwner_eq (hw : m.weak w = some h) :
    storeWeakOwner w q m = some ((), m.setWeak w (some ⟨h.ptr, q⟩)) := by
  change (loadWeak w m).bind _ = _
  rw [loadWeak_eq hw]
  exact storeWeak_eq hw

/-- A variable without owner gets what another one has. -/
theorem Holds.watch (hm : Holds ps pw n hs hw m) (hw' : ownerOf (pw w) = none) (hq : Backed ps pw h.owner) :
    Holds ps (Function.update pw w (some h)) n hs hw ((m.setWeak w (some h)).incrementWeakAny h.owner) := by
  rw [incrementWeakAny_setWeak]
  have hset := (hm.incrementWeakAny (hm.weakRef_pos_of_backed hq)).setWeak (s := some h) w
  rwa [hw'] at hset

/-- A variable loses its owner, and the reference is given back. -/
theorem Holds.releaseWeak (hm : Holds ps pw n hs hw m) (hw' : pw w = some h) (hs' : ownerOf s = none) :
    Holds ps (Function.update pw w s) n hs hw ((m.setWeak w s).decrementWeakAny h.owner) := by
  apply Holds.decrementWeakAny
  have hset := (show Holds ps pw n hs ((ownerOf s).toList ++ hw) m from by rwa [hs']).setWeak w
  rwa [hw'] at hset

/-- The constructors that copy, from either kind of pointer. -/
theorem watchNew_spec (hm : Holds ps pw n hs hw m) (hw' : pw w = none) (hq : Backed ps pw h.owner) :
    Leads (do
      createWeak w h
      whenSome h.owner addWeakRef) m fun _ => Holds ps (Function.update pw w (some h)) n hs hw := by
  apply Leads.bind_eq (createWeak_eq (by rw [hm.weak, hw']))
  refine Leads.of_eq (addWeakRef_eq (m := m.setWeak w _) (q := h.owner) (hm.alive_of_backed hq)) ?_
  exact hm.watch (by rw [hw']; rfl) hq

theorem weakNull_spec (hm : Holds ps pw n hs hw m) (hw' : pw w = none) :
    Leads (createWeak w Handle.null) m fun _ => Holds ps (Function.update pw w (some Handle.null)) n hs hw := by
  refine Leads.of_eq (createWeak_eq (by rw [hm.weak, hw'])) ?_
  have hset := hm.setWeak (s := some Handle.null) w
  rwa [hw'] at hset

theorem weakFromShared_spec (hm : Holds ps pw n hs hw m) (hw' : pw w = none) (hx : ps x = some h) :
    Leads (weakFromShared w x) m fun _ => Holds ps (Function.update pw w (some h)) n hs hw := by
  apply Leads.bind_eq (loadShared_eq (by rw [hm.shared, hx]))
  exact watchNew_spec hm hw' (backed_shared hx)

theorem weakCopyConstruct_spec (hm : Holds ps pw n hs hw m) (hw' : pw w = none) (hv : pw v = some h) :
    Leads (weakCopyConstruct w v) m fun _ => Holds ps (Function.update pw w (some h)) n hs hw := by
  apply Leads.bind_eq (loadWeak_eq (by rw [hm.weak, hv]))
  exact watchNew_spec hm hw' (backed_weak hv)

theorem Holds.transferWeak (hm : Holds ps pw n hs hw m) (hne : v ≠ w) (hv : pw v = some h) :
    Holds ps (Function.update (Function.update pw v (some Handle.null)) w (some h)) n hs
      ((ownerOf (pw w)).toList ++ hw) ((m.setWeak w (some h)).setWeak v (some Handle.null)) := by
  rw [setWeak_comm m hne.symm]
  have hempty := hm.setWeak (s := some Handle.null) v
  rw [hv] at hempty
  have hset := hempty.setWeak (s := some h) w
  rwa [Function.update_of_ne hne.symm] at hset

theorem weakMoveConstruct_spec (hm : Holds ps pw n hs hw m) (hw' : pw w = none) (hv : pw v = some h) :
    Leads (weakMoveConstruct w v) m fun _ =>
      Holds ps (Function.update (Function.update pw v (some Handle.null)) w (some h)) n hs hw := by
  have hne := ne_of_some_weak hw' hv
  have hv₁ : (m.setWeak w (some h)).weak v = some h := by rw [weak_setWeak, Function.update_of_ne hne, hm.weak, hv]
  apply Leads.bind_eq (loadWeak_eq (by rw [hm.weak, hv]))
  apply Leads.bind_eq (createWeak_eq (by rw [hm.weak, hw']))
  apply Leads.bind_eq (storeWeakPtr_eq hv₁)
  refine Leads.of_eq (storeWeakOwner_eq (h := ⟨none, h.owner⟩) (by rw [weak_setWeak, Function.update_self])) ?_
  rw [setWeak_idem]
  have htransfer := hm.transferWeak hne hv
  rwa [hw'] at htransfer

theorem weakReset_spec (hm : Holds ps pw n hs hw m) (hw' : pw w = some h) :
    Leads (weakReset w) m fun _ => Holds ps (Function.update pw w (some Handle.null)) n hs hw := by
  have hload : (m.decrementWeakAny h.owner).weak w = some h := by rw [weak_decrementWeakAny, hm.weak, hw']
  apply Leads.bind_eq (loadWeak_eq (by rw [hm.weak, hw']))
  apply Leads.bind_eq (subWeakRef_eq (hm.alive_of_backed (backed_weak hw')))
  apply Leads.bind_eq (storeWeakOwner_eq hload)
  refine Leads.of_eq (storeWeakPtr_eq (h := ⟨h.ptr, none⟩) (by rw [weak_setWeak, Function.update_self])) ?_
  rw [setWeak_idem, decrementWeakAny_setWeak]
  exact hm.releaseWeak hw' rfl

theorem weakDestroy_spec (hm : Holds ps pw n hs hw m) (hw' : pw w = some h) :
    Leads (weakDestroy w) m fun _ => Holds ps (Function.update pw w none) n hs hw := by
  apply (weakReset_spec hm hw').bind
  intro _ m' hm'
  refine Leads.of_eq (removeWeak_eq (h := Handle.null) (by rw [hm'.weak, Function.update_self])) ?_
  have hset := hm'.setWeak (s := none) w
  rwa [Function.update_self, Function.update_idem] at hset

theorem Holds.replaceWeak (hm : Holds ps pw n hs hw m) (hw' : pw w = some h) (hsame : h.owner = h'.owner) :
    Holds ps (Function.update pw w (some h')) n hs hw (m.setWeak w (some h')) := by
  have hfirst := hm.setWeak (s := none) w
  have howner : ownerOf (some h) = ownerOf (some h') := hsame
  rw [hw', howner] at hfirst
  have hsecond := hfirst.setWeak w
  rwa [Function.update_self, Function.update_idem, setWeak_idem] at hsecond

theorem weakAssign_spec (hm : Holds ps pw n hs hw m) (hw' : pw w = some h)
    (hq : h'.owner ≠ h.owner → Backed ps (Function.update pw w (some Handle.null)) h'.owner) :
    Leads (weakAssign w h') m fun _ => Holds ps (Function.update pw w (some h')) n hs hw := by
  apply Leads.bind_eq (loadWeak_eq (by rw [hm.weak, hw']))
  obtain hsame | hne := eq_or_ne h'.owner h.owner
  · rw [if_neg (not_not_intro hsame)]
    refine Leads.of_eq (storeWeakPtr_eq (by rw [hm.weak, hw'])) ?_
    rw [← hsame]
    exact hm.replaceWeak hw' hsame.symm
  · rw [if_pos hne]
    have hrelease := hm.releaseWeak (s := some Handle.null) hw' rfl
    have hload : (m.decrementWeakAny h.owner).weak w = some h := by rw [weak_decrementWeakAny, hm.weak, hw']
    apply Leads.bind_eq (subWeakRef_eq (hm.alive_of_backed (backed_weak hw')))
    apply Leads.bind_eq (storeWeakOwner_eq hload)
    rw [decrementWeakAny_setWeak, ← setWeak_idem m w (some Handle.null), ← decrementWeakAny_setWeak]
    apply Leads.bind_eq (addWeakRef_eq (m := ((m.setWeak w _).decrementWeakAny h.owner).setWeak w _)
      (hrelease.alive_of_backed (hq hne)))
    rw [incrementWeakAny_setWeak]
    refine Leads.of_eq (storeWeakPtr_eq (h := ⟨h.ptr, h'.owner⟩) (by rw [weak_setWeak, Function.update_self])) ?_
    rw [setWeak_idem, ← incrementWeakAny_setWeak]
    have hwatch := hrelease.watch (w := w) (by rw [Function.update_self]; rfl) (hq hne)
    rwa [Function.update_idem] at hwatch

theorem weakCopyAssign_spec (hm : Holds ps pw n hs hw m) (hw' : pw w = some h) (hv : pw v = some h') :
    Leads (weakCopyAssign w v) m fun _ => Holds ps (Function.update pw w (some h')) n hs hw := by
  apply Leads.bind_eq (loadWeak_eq (by rw [hm.weak, hv]))
  apply weakAssign_spec hm hw'
  intro hdiffer
  have hne : v ≠ w := by
    rintro rfl
    cases hw'.symm.trans hv
    exact hdiffer rfl
  exact backed_weak (w := v) (by rw [Function.update_of_ne hne, hv])

theorem weakAssignShared_spec (hm : Holds ps pw n hs hw m) (hw' : pw w = some h) (hx : ps x = some h') :
    Leads (weakAssignShared w x) m fun _ => Holds ps (Function.update pw w (some h')) n hs hw := by
  apply Leads.bind_eq (loadShared_eq (by rw [hm.shared, hx]))
  exact weakAssign_spec hm hw' fun _ => backed_shared hx

theorem weakMoveAssign_other (hm : Holds ps pw n hs hw m) (hne : v ≠ w) (hw' : pw w = some h) (hv : pw v = some h') :
    Leads (weakMoveAssign w v) m fun _ =>
      Holds ps (Function.update (Function.update pw v (some Handle.null)) w (some h')) n hs hw := by
  let m₁ := m.decrementWeakAny h.owner
  have hw₁ : m₁.weak w = some h := by rw [weak_decrementWeakAny, hm.weak, hw']
  have hv₁ : m₁.weak v = some h' := by rw [weak_decrementWeakAny, hm.weak, hv]
  have hv₂ (s : Option Handle) : (m₁.setWeak w s).weak v = some h' := by
    rw [weak_setWeak, Function.update_of_ne hne, hv₁]
  rw [weakMoveAssign, if_neg hne]
  apply Leads.bind_eq (loadWeak_eq (by rw [hm.weak, hw']))
  apply Leads.bind_eq (subWeakRef_eq (hm.alive_of_backed (backed_weak hw')))
  apply Leads.bind_eq (loadWeak_eq (m := m₁) hv₁)
  apply Leads.bind_eq (storeWeakOwner_eq (m := m₁) hw₁)
  apply Leads.bind_eq (loadWeak_eq (hv₂ _))
  apply Leads.bind_eq (storeWeakPtr_eq (h := ⟨h.ptr, h'.owner⟩) (by rw [weak_setWeak, Function.update_self]))
  rw [setWeak_idem]
  apply Leads.bind_eq (storeWeakPtr_eq (hv₂ _))
  refine Leads.of_eq (storeWeakOwner_eq (h := ⟨none, h'.owner⟩) (by rw [weak_setWeak, Function.update_self])) ?_
  rw [setWeak_idem, decrementWeakAny_setWeak, decrementWeakAny_setWeak]
  apply Holds.decrementWeakAny
  have htransfer := hm.transferWeak hne hv
  rwa [hw'] at htransfer

theorem weakMoveAssign_spec (hm : Holds ps pw n hs hw m) (hw' : pw w = some h) (hv : pw v = some h') :
    Leads (weakMoveAssign w v) m fun _ =>
      Holds ps (Function.update (Function.update pw v (some Handle.null)) w (some h')) n hs hw := by
  obtain rfl | hne := eq_or_ne v w
  · rw [weakMoveAssign, if_pos rfl, Function.update_idem, Function.update_eq_self_iff.mpr hv.symm]
    exact Leads.pure hm
  · exact weakMoveAssign_other hm hne hw' hv

theorem Holds.exchangeWeak (hm : Holds ps pw n hs hw m) (hw' : pw w = some h) (hv : pw v = some h') :
    Holds ps (Function.update (Function.update pw w (some h')) v (some h)) n hs hw
      ((m.setWeak w (some h')).setWeak v (some h)) := by
  have hnone := hm.setWeak (s := none) v
  rw [hv] at hnone
  obtain rfl | hne := eq_or_ne w v
  · cases hw'.symm.trans hv
    rw [Function.update_idem, setWeak_idem]
    have hself := hnone.setWeak (s := some h) w
    rwa [Function.update_self, Function.update_idem, setWeak_idem] at hself
  · have hfirst := hnone.setWeak (s := some h') w
    rw [Function.update_of_ne hne, hw'] at hfirst
    have hsecond := hfirst.setWeak (s := some h) v
    rw [Function.update_of_ne hne.symm, Function.update_self] at hsecond
    rwa [Function.update_comm hne.symm, Function.update_idem, setWeak_comm m hne.symm, setWeak_idem] at hsecond

theorem weakSwap_spec (hm : Holds ps pw n hs hw m) (hw' : pw w = some h) (hv : pw v = some h') :
    Leads (weakSwap w v) m fun _ =>
      Holds ps (Function.update (Function.update pw w (some h')) v (some h)) n hs hw := by
  apply Leads.bind_eq (loadWeak_eq (by rw [hm.weak, hw']))
  apply Leads.bind_eq (loadWeak_eq (by rw [hm.weak, hv]))
  apply Leads.bind_eq (storeWeak_eq (by rw [hm.weak, hw']))
  have hv' : ∃ u, (m.setWeak w (some h')).weak v = some u := by
    rw [weak_setWeak, hm.weak]
    obtain rfl | hne := eq_or_ne v w
    · exact ⟨h', Function.update_self ..⟩
    · exact ⟨h', by rw [Function.update_of_ne hne, hv]⟩
  obtain ⟨u, hu⟩ := hv'
  exact Leads.of_eq (storeWeak_eq hu) (hm.exchangeWeak hw' hv)

/-- The object of the control block lives. -/
def Owned (ps : Option ι → Option Handle) (k : ℕ) : Prop := ∃ x, ownerOf (ps x) = some k

omit [DecidableEq ω] in
theorem Holds.strong_pos_iff (hm : Holds ps pw n [] hw m) : 0 < m.strongRef k ↔ Owned ps k := by
  constructor
  · intro hpos
    by_contra hnone
    have hempty : {x | ownerOf (ps x) = some k} = ∅ := by
      ext x
      exact iff_of_false (fun hx => hnone ⟨x, hx⟩) (Set.notMem_empty x)
    have hcount := hm.strong k
    rw [hempty, Set.encard_empty, List.count_nil, Nat.cast_zero, add_zero, Nat.cast_eq_zero] at hcount
    exact hpos.ne' hcount
  · rintro ⟨x, hx⟩
    exact hm.strong_pos_of_owner hx

omit [DecidableEq ω] in
theorem tryAddStrongRef_pos (hlive : m.Alive k) (hpos : m.strongRef k ≠ 0) :
    tryAddStrongRef k m = some (true, m.incrementStrong k) := by
  rw [tryAddStrongRef, if_pos hlive, if_neg hpos]

omit [DecidableEq ω] in
theorem tryAddStrongRef_zero (hlive : m.Alive k) (hzero : m.strongRef k = 0) :
    tryAddStrongRef k m = some (false, m) := by
  rw [tryAddStrongRef, if_pos hlive, if_pos hzero]

theorem owner_toList (hk : h.owner = q) : (ownerOf (some h)).toList ++ [] = q.toList := by
  rw [List.append_nil]
  exact congrArg Option.toList hk

/-- What a `weak_ptr` gives. -/
noncomputable def locked (ps : Option ι → Option Handle) (h : Handle) : Handle :=
  open Classical in if ∃ k ∈ h.owner, Owned ps k then h else Handle.null

omit [DecidableEq ω] in
theorem lock_spec [DecidableEq ι] (hm : Holds ps pw n [] hw m) (hx : ps x = none) (hw' : pw w = some h) :
    Leads (lock x w) m fun _ => Holds (Function.update ps x (some (locked ps h))) pw n [] hw := by
  apply (createNull_spec hm hx).bind
  intro _ m' hm'
  apply Leads.bind_eq (loadWeak_eq (by rw [hm'.weak, hw']))
  cases hk : h.owner with
  | none =>
    rw [locked, if_neg (by simp [hk])]
    exact Leads.pure hm'
  | some k =>
    have hlive := hm'.alive_of_backed (backed_weak hw') k hk
    have hheld : (ownerOf (some h)).toList ++ [] = [k] := owner_toList hk
    have howned : Owned (Function.update ps x (some Handle.null)) k ↔ Owned ps k := by
      apply exists_congr
      intro y
      obtain rfl | hne := eq_or_ne y x
      · rw [Function.update_self, hx]
        rfl
      · rw [Function.update_of_ne hne]
    by_cases hpos : Owned ps k
    · have hstrong := hm'.strong_pos_iff.mpr (howned.mpr hpos)
      rw [locked, if_pos ⟨k, hk, hpos⟩]
      apply Leads.bind_eq (tryAddStrongRef_pos hlive hstrong.ne')
      have hload : (m'.incrementStrong k).shared x = some Handle.null := by
        change m'.shared x = _
        rw [hm'.shared, Function.update_self]
      refine Leads.of_eq (storeShared_eq hload) ?_
      have hone := hm'.incrementStrong hstrong
      rw [← hheld] at hone
      have hstore := hone.setShared x
      rwa [Function.update_self, Function.update_idem] at hstore
    · have hzero := Nat.eq_zero_of_not_pos (mt hm'.strong_pos_iff.mp (mt howned.mp hpos))
      have hlost : ¬ ∃ k ∈ h.owner, Owned ps k := by
        rintro ⟨k', hk', howned'⟩
        cases hk.symm.trans hk'
        exact hpos howned'
      rw [locked, if_neg hlost]
      apply Leads.bind_eq (tryAddStrongRef_zero hlive hzero)
      exact Leads.pure hm'

/-- The pointer that is made from a `weak_ptr`, unless its object was deleted. -/
noncomputable def revived (ps : Option ι → Option Handle) (h : Handle) : Option Handle :=
  open Classical in if ∀ k ∈ h.owner, Owned ps k then some h else none

omit [DecidableEq ω] in
theorem constructFromWeak_spec [DecidableEq ι] (hm : Holds ps pw n [] hw m) (hx : ps x = none) (hw' : pw w = some h) :
    Leads (constructFromWeak x w) m fun _ => Holds (Function.update ps x (revived ps h)) pw n [] hw := by
  apply Leads.bind_eq (loadWeak_eq (by rw [hm.weak, hw']))
  apply Leads.bind_eq (createShared_eq (by rw [hm.shared, hx]))
  cases hk : h.owner with
  | none =>
    rw [revived, if_pos (by simp [hk])]
    have hheld : (ownerOf (some h)).toList ++ [] = [] := owner_toList hk
    rw [← hheld] at hm
    have hset := hm.setShared x
    rw [hx] at hset
    exact Leads.pure hset
  | some k =>
    have hlive := hm.alive_of_backed (backed_weak hw') k hk
    have hheld : (ownerOf (some h)).toList ++ [] = [k] := owner_toList hk
    by_cases hpos : Owned ps k
    · have hstrong := hm.strong_pos_iff.mpr hpos
      have hall : ∀ k' ∈ h.owner, Owned ps k' := by
        intro k' hk'
        cases hk.symm.trans hk'
        exact hpos
      rw [revived, if_pos hall]
      apply Leads.bind_eq (tryAddStrongRef_pos (m := m.setShared x _) hlive hstrong.ne')
      have hone := hm.incrementStrong hstrong
      rw [← hheld] at hone
      have hset := hone.setShared x
      rw [hx] at hset
      exact Leads.pure hset
    · have hzero := Nat.eq_zero_of_not_pos (mt hm.strong_pos_iff.mp hpos)
      rw [revived, if_neg fun hall => hpos (hall k hk)]
      apply Leads.bind_eq (tryAddStrongRef_zero (m := m.setShared x _) hlive hzero)
      refine Leads.of_eq (removeShared_eq (h := h) (by rw [shared_setShared, Function.update_self])) ?_
      rw [setShared_idem]
      have hset := hm.setShared (s := none) x
      rwa [hx] at hset

end XviOs.SharedPtr
