import XviOs.SharedPtr.Counts

namespace XviOs.SharedPtr

open Library.Ownership Library.StateProgram

variable {ι ω : Type} {m : Memory ι ω} {ps : Option ι → Option Handle} {pw : ω → Option Handle} {n k : ℕ}
  {hs hw : List ℕ} {x y : Option ι} {w : ω} {h h' : Handle} {p q : Option ℕ} {s s' : Option Handle}

theorem loadShared_eq (hx : m.shared x = some h) : loadShared x m = some (h, m) := by rw [loadShared, hx]; rfl

theorem loadWeak_eq (hw : m.weak w = some h) : loadWeak w m = some (h, m) := by rw [loadWeak, hw]; rfl

theorem addStrongRef_eq (hq : ∀ k ∈ q, m.Alive k) :
    whenSome q addStrongRef m = some ((), m.incrementStrongAny q) := by
  cases q with
  | none => rfl
  | some k => exact if_pos (hq k rfl)

theorem subStrongRef_eq (hq : ∀ k ∈ q, m.Alive k) :
    whenSome q subStrongRef m = some ((), m.decrementStrongAny q) := by
  cases q with
  | none => rfl
  | some k => exact if_pos (hq k rfl)

@[simp]
theorem shared_decrementStrongAny (m : Memory ι ω) (q : Option ℕ) : (m.decrementStrongAny q).shared = m.shared := by
  cases q with
  | none => rfl
  | some k =>
    change (m.decrementStrong k).shared = m.shared
    rw [Memory.decrementStrong]
    split_ifs <;> rfl

/-- The control block of a variable is there. -/
theorem Holds.alive_of_owner (hm : Holds ps pw n hs hw m) (hx : ps x = some h) : ∀ k ∈ h.owner, m.Alive k := by
  intro k hk
  apply hm.alive
  apply hm.weakRef_pos
  apply hm.strong_pos_of_owner (x := x)
  rw [hx]
  exact hk

theorem Holds.incrementOwned (hm : Holds ps pw n hs hw m) (hx : ps x = some h) :
    Holds ps pw n (h.owner.toList ++ hs) hw (m.incrementStrongAny h.owner) :=
  hm.incrementStrongAny (x := x) (by rw [hx]; rfl)

theorem ne_of_some (hx : ps x = none) (hy : ps y = some h) : y ≠ x := by
  rintro rfl
  rw [hx] at hy
  cases hy

variable [DecidableEq ι]

theorem shared_setShared (m : Memory ι ω) (x : Option ι) (s : Option Handle) :
    (m.setShared x s).shared = Function.update m.shared x s := rfl

theorem setShared_idem (m : Memory ι ω) (x : Option ι) (s s' : Option Handle) :
    (m.setShared x s).setShared x s' = m.setShared x s' := by
  simp only [Memory.setShared, Function.update_idem]

theorem setShared_comm (m : Memory ι ω) (hne : x ≠ y) (s s' : Option Handle) :
    (m.setShared x s).setShared y s' = (m.setShared y s').setShared x s := by
  simp only [Memory.setShared, Function.update_comm hne]

theorem incrementStrongAny_setShared (m : Memory ι ω) (x : Option ι) (s : Option Handle) (q : Option ℕ) :
    (m.setShared x s).incrementStrongAny q = (m.incrementStrongAny q).setShared x s := by
  cases q <;> rfl

theorem decrementStrongAny_setShared (m : Memory ι ω) (x : Option ι) (s : Option Handle) (q : Option ℕ) :
    (m.decrementStrongAny q).setShared x s = (m.setShared x s).decrementStrongAny q := by
  cases q with
  | none => rfl
  | some k =>
    change (m.decrementStrong k).setShared x s = (m.setShared x s).decrementStrong k
    by_cases hone : m.strongRef k = 1
    · have hset : (m.setShared x s).strongRef k = 1 := hone
      rw [Memory.decrementStrong, Memory.decrementStrong, if_pos hone, if_pos hset]
      rfl
    · have hset : (m.setShared x s).strongRef k ≠ 1 := hone
      rw [Memory.decrementStrong, Memory.decrementStrong, if_neg hone, if_neg hset]
      rfl

theorem storeShared_eq (hx : m.shared x = some h) : storeShared x h' m = some ((), m.setShared x (some h')) := by
  rw [storeShared, hx]
  rfl

theorem createShared_eq (hx : m.shared x = none) : createShared x h m = some ((), m.setShared x (some h)) := by
  rw [createShared, hx]
  rfl

theorem removeShared_eq (hx : m.shared x = some h) : removeShared x m = some ((), m.setShared x none) := by
  rw [removeShared, hx]
  rfl

theorem storePtr_eq (hx : m.shared x = some h) :
    storePtr x p m = some ((), m.setShared x (some ⟨p, h.owner⟩)) := by
  change (loadShared x m).bind _ = _
  rw [loadShared_eq hx]
  exact storeShared_eq hx

theorem storeOwner_eq (hx : m.shared x = some h) :
    storeOwner x q m = some ((), m.setShared x (some ⟨h.ptr, q⟩)) := by
  change (loadShared x m).bind _ = _
  rw [loadShared_eq hx]
  exact storeShared_eq hx

theorem createShared_spec (hm : Holds ps pw n (h.owner.toList ++ hs) hw m) (hx : ps x = none) :
    Leads (createShared x h) m fun _ => Holds (Function.update ps x (some h)) pw n hs hw := by
  refine Leads.of_eq (createShared_eq (by rw [hm.shared, hx])) ?_
  have hset := hm.setShared (s := some h) x
  rwa [hx] at hset

theorem createNull_spec (hm : Holds ps pw n hs hw m) (hx : ps x = none) :
    Leads (createShared x Handle.null) m fun _ => Holds (Function.update ps x (some Handle.null)) pw n hs hw :=
  createShared_spec (h := Handle.null) hm hx

theorem constructNew_spec [DecidableEq ω] (hm : Holds ps pw n hs hw m) (hx : ps x = none) :
    Leads (constructNew x) m fun _ => Holds (Function.update ps x (some ⟨some n, some n⟩)) pw (n + 1) hs hw := by
  apply Leads.bind_eq (show newOwner m = some (m.made, m.make) from rfl)
  rw [hm.made]
  exact createShared_spec (h := ⟨some n, some n⟩) hm.make hx

theorem aliasConstruct_spec (hm : Holds ps pw n hs hw m) (hx : ps x = none) (hy : ps y = some h) (p : Option ℕ) :
    Leads (aliasConstruct x y p) m fun _ => Holds (Function.update ps x (some ⟨p, h.owner⟩)) pw n hs hw := by
  apply Leads.bind_eq (loadShared_eq (by rw [hm.shared, hy]))
  apply Leads.bind_eq (createShared_eq (by rw [hm.shared, hx]))
  refine Leads.of_eq (addStrongRef_eq (hm.alive_of_owner hy)) ?_
  rw [incrementStrongAny_setShared]
  have hset := (hm.incrementOwned hy).setShared (s := some ⟨p, h.owner⟩) x
  rwa [hx] at hset

theorem copyConstruct_spec (hm : Holds ps pw n hs hw m) (hx : ps x = none) (hy : ps y = some h) :
    Leads (copyConstruct x y) m fun _ => Holds (Function.update ps x (some h)) pw n hs hw := by
  apply Leads.bind_eq (loadShared_eq (by rw [hm.shared, hy]))
  exact aliasConstruct_spec hm hx hy h.ptr

/-- A variable gets what another one had, before that is emptied. -/
theorem Holds.transfer (hm : Holds ps pw n hs hw m) (hxy : y ≠ x) (hy : ps y = some h) :
    Holds (Function.update (Function.update ps y (some Handle.null)) x (some h)) pw n
      ((ownerOf (ps x)).toList ++ hs) hw ((m.setShared x (some h)).setShared y (some Handle.null)) := by
  rw [setShared_comm m hxy.symm]
  have hempty := hm.setShared (s := some Handle.null) y
  rw [hy] at hempty
  have hset := hempty.setShared (s := some h) x
  rwa [Function.update_of_ne hxy.symm] at hset

/-- The two stores that empty a variable. -/
theorem storeNull_leads {Q : Unit → Memory ι ω → Prop} (hy : m.shared y = some h)
    (hQ : Q () (m.setShared y (some Handle.null))) :
    Leads (do
      storePtr y none
      storeOwner y none) m Q := by
  apply Leads.bind_eq (storePtr_eq hy)
  refine Leads.of_eq (storeOwner_eq (h := ⟨none, h.owner⟩) (by rw [shared_setShared, Function.update_self])) ?_
  rwa [setShared_idem]

theorem moveConstruct_spec (hm : Holds ps pw n hs hw m) (hx : ps x = none) (hy : ps y = some h) :
    Leads (moveConstruct x y) m fun _ =>
      Holds (Function.update (Function.update ps y (some Handle.null)) x (some h)) pw n hs hw := by
  have hne := ne_of_some hx hy
  apply Leads.bind_eq (loadShared_eq (by rw [hm.shared, hy]))
  apply Leads.bind_eq (createShared_eq (by rw [hm.shared, hx]))
  apply storeNull_leads (h := h)
  · rw [shared_setShared, Function.update_of_ne hne, hm.shared, hy]
  · have htransfer := hm.transfer hne hy
    rwa [hx] at htransfer

/-- A variable loses its owner, and the reference is given back. -/
theorem Holds.release [DecidableEq ω] (hm : Holds ps pw n hs hw m) (hx : ps x = some h) (hs' : ownerOf s = none) :
    Holds (Function.update ps x s) pw n hs hw ((m.setShared x s).decrementStrongAny h.owner) := by
  apply Holds.decrementStrongAny
  have hset := (show Holds ps pw n ((ownerOf s).toList ++ hs) hw m from by rwa [hs']).setShared x
  rwa [hx] at hset

theorem destroy_spec [DecidableEq ω] (hm : Holds ps pw n hs hw m) (hx : ps x = some h) :
    Leads (destroy x) m fun _ => Holds (Function.update ps x none) pw n hs hw := by
  apply Leads.bind_eq (loadShared_eq (by rw [hm.shared, hx]))
  apply Leads.bind_eq (subStrongRef_eq (hm.alive_of_owner hx))
  refine Leads.of_eq (removeShared_eq (by rw [shared_decrementStrongAny, hm.shared, hx])) ?_
  rw [decrementStrongAny_setShared]
  exact hm.release hx rfl

theorem reset_spec [DecidableEq ω] (hm : Holds ps pw n hs hw m) (hx : ps x = some h) :
    Leads (reset x) m fun _ => Holds (Function.update ps x (some Handle.null)) pw n hs hw := by
  have hset : (m.setShared x (some ⟨none, h.owner⟩)).shared x = some ⟨none, h.owner⟩ := by
    rw [shared_setShared, Function.update_self]
  apply Leads.bind_eq (storePtr_eq (by rw [hm.shared, hx]))
  apply Leads.bind_eq (loadShared_eq hset)
  apply Leads.bind_eq (subStrongRef_eq (m := m.setShared x _) (q := h.owner) (hm.alive_of_owner hx))
  refine Leads.of_eq (storeOwner_eq (h := ⟨none, h.owner⟩) (by rw [shared_decrementStrongAny, hset])) ?_
  rw [decrementStrongAny_setShared, setShared_idem]
  exact hm.release hx rfl

/-- The assignments that move, to another variable. -/
theorem moveAssign_spec [DecidableEq ω] (hm : Holds ps pw n hs hw m) (hne : x ≠ y) (hx : ps x = some h)
    (hy : ps y = some h') :
    Leads (moveAssign x y) m fun _ =>
      Holds (Function.update (Function.update ps y (some Handle.null)) x (some h')) pw n hs hw := by
  let m₁ := m.setShared x (some ⟨h'.ptr, h.owner⟩)
  let m₂ := m₁.setShared y (some ⟨none, h'.owner⟩)
  have hy₁ : m₁.shared y = some h' := by rw [shared_setShared, Function.update_of_ne hne.symm, hm.shared, hy]
  have hx₂ : m₂.shared x = some ⟨h'.ptr, h.owner⟩ := by
    rw [shared_setShared, Function.update_of_ne hne, shared_setShared, Function.update_self]
  have hy₂ : m₂.shared y = some ⟨none, h'.owner⟩ := by rw [shared_setShared, Function.update_self]
  apply Leads.bind_eq (loadShared_eq (by rw [hm.shared, hy]))
  apply Leads.bind_eq (storePtr_eq (by rw [hm.shared, hx]))
  apply Leads.bind_eq (storePtr_eq (m := m₁) hy₁)
  apply Leads.bind_eq (loadShared_eq (m := m₂) hx₂)
  apply Leads.bind_eq (subStrongRef_eq (m := m₂) (q := h.owner) (hm.alive_of_owner hx))
  apply Leads.bind_eq (loadShared_eq (by rw [shared_decrementStrongAny, hy₂]))
  apply Leads.bind_eq (storeOwner_eq (by rw [shared_decrementStrongAny, hx₂]))
  refine Leads.of_eq (storeOwner_eq (h := ⟨none, h'.owner⟩) ?_) ?_
  · rw [shared_setShared, Function.update_of_ne hne.symm, shared_decrementStrongAny, hy₂]
  · rw [decrementStrongAny_setShared, decrementStrongAny_setShared]
    apply Holds.decrementStrongAny
    have htransfer := hm.transfer hne.symm hy
    rw [hx] at htransfer
    rw [setShared_comm _ hne.symm, setShared_idem]
    change Holds _ _ _ _ _ (((m.setShared x _).setShared x (some h')).setShared y (some Handle.null))
    rwa [setShared_idem]

/-- A null pointer that is moved to itself. -/
theorem moveAssign_null (hm : Holds ps pw n hs hw m) (hx : ps x = some Handle.null) :
    Leads (moveAssign x x) m fun _ =>
      Holds (Function.update (Function.update ps x (some Handle.null)) x (some Handle.null)) pw n hs hw := by
  have hself : m.setShared x (some Handle.null) = m := by
    rw [Memory.setShared, hm.shared, Function.update_eq_self_iff.mpr hx.symm, ← hm.shared]
  have hload : m.shared x = some Handle.null := by rw [hm.shared, hx]
  have hptr : storePtr x none m = some ((), m) := by rw [storePtr_eq hload]; exact congrArg _ (congrArg _ hself)
  have howner : storeOwner x none m = some ((), m) := by rw [storeOwner_eq hload]; exact congrArg _ (congrArg _ hself)
  rw [Function.update_idem, Function.update_eq_self_iff.mpr hx.symm]
  apply Leads.bind_eq (loadShared_eq hload)
  apply Leads.bind_eq hptr
  apply Leads.bind_eq hptr
  apply Leads.bind_eq (loadShared_eq hload)
  apply Leads.bind_eq (subStrongRef_eq (q := none) (by rintro k ⟨⟩))
  apply Leads.bind_eq (loadShared_eq hload)
  apply Leads.bind_eq howner
  exact Leads.of_eq howner hm

/-- The owner stays as it was. -/
theorem Holds.replace (hm : Holds ps pw n hs hw m) (hx : ps x = some h) (hsame : h.owner = h'.owner) :
    Holds (Function.update ps x (some h')) pw n hs hw (m.setShared x (some h')) := by
  have hfirst := hm.setShared (s := none) x
  have howner : ownerOf (some h) = ownerOf (some h') := hsame
  rw [hx, howner] at hfirst
  have hsecond := hfirst.setShared x
  rwa [Function.update_self, Function.update_idem, setShared_idem] at hsecond

/-- A variable without owner gets what another one has. -/
theorem Holds.share (hm : Holds ps pw n hs hw m) (hx : ownerOf (ps x) = none) (hy : ps y = some h) :
    Holds (Function.update ps x (some h)) pw n hs hw ((m.setShared x (some h)).incrementStrongAny h.owner) := by
  rw [incrementStrongAny_setShared]
  have hset := (hm.incrementOwned hy).setShared (s := some h) x
  rwa [hx] at hset

/-- The owners are the same, so nothing is counted. -/
theorem copyAssign_same (hm : Holds ps pw n hs hw m) (hx : ps x = some h) (hy : ps y = some h')
    (hsame : h.owner = h'.owner) :
    Leads (copyAssign x y) m fun _ => Holds (Function.update ps x (some h')) pw n hs hw := by
  have hx₁ : (m.setShared x (some ⟨h'.ptr, h.owner⟩)).shared x = some h' := by
    rw [shared_setShared, Function.update_self, hsame]
  have hy₁ : (m.setShared x (some ⟨h'.ptr, h.owner⟩)).shared y = some h' := by
    rw [shared_setShared, hsame]
    obtain rfl | hne := eq_or_ne y x
    · exact Function.update_self ..
    · rw [Function.update_of_ne hne, hm.shared, hy]
  apply Leads.bind_eq (loadShared_eq (by rw [hm.shared, hy]))
  apply Leads.bind_eq (storePtr_eq (by rw [hm.shared, hx]))
  apply Leads.bind_eq (loadShared_eq hx₁)
  apply Leads.bind_eq (loadShared_eq hy₁)
  rw [if_neg (fun hdiffer => hdiffer.2 rfl), hsame]
  apply Leads.pure
  exact hm.replace hx hsame

theorem copyAssign_spec [DecidableEq ω] (hm : Holds ps pw n hs hw m) (hx : ps x = some h) (hy : ps y = some h')
    (hnull : h.owner = none ↔ h'.owner = none) :
    Leads (copyAssign x y) m fun _ => Holds (Function.update ps x (some h')) pw n hs hw := by
  obtain hsame | hdiffer := eq_or_ne h.owner h'.owner
  · exact copyAssign_same hm hx hy hsame
  have hne : y ≠ x := by
    rintro rfl
    cases hx.symm.trans hy
    exact hdiffer rfl
  obtain ⟨k, hk⟩ := Option.ne_none_iff_exists'.mp fun hnone => hdiffer (hnone.trans (hnull.mp hnone).symm)
  obtain ⟨k', hk'⟩ := Option.ne_none_iff_exists'.mp fun hnone => hdiffer ((hnull.mpr hnone).trans hnone.symm)
  let m₁ := m.setShared x (some ⟨h'.ptr, h.owner⟩)
  have hx₁ : m₁.shared x = some ⟨h'.ptr, h.owner⟩ := by rw [shared_setShared, Function.update_self]
  have hy₁ : m₁.shared y = some h' := by rw [shared_setShared, Function.update_of_ne hne, hm.shared, hy]
  have hrelease := hm.release (s := some ⟨h'.ptr, none⟩) hx rfl
  have hy₂ : Function.update ps x (some ⟨h'.ptr, none⟩) y = some h' := by rw [Function.update_of_ne hne, hy]
  apply Leads.bind_eq (loadShared_eq (by rw [hm.shared, hy]))
  apply Leads.bind_eq (storePtr_eq (by rw [hm.shared, hx]))
  apply Leads.bind_eq (loadShared_eq (m := m₁) hx₁)
  apply Leads.bind_eq (loadShared_eq (m := m₁) hy₁)
  rw [if_pos ⟨by rw [hk]; exact Option.some_ne_none k, hdiffer⟩]
  apply Leads.bind_eq (subStrongRef_eq (m := m₁) (q := h.owner) (hm.alive_of_owner hx))
  apply Leads.bind_eq (loadShared_eq (by rw [shared_decrementStrongAny, hy₁]))
  apply Leads.bind_eq (storeOwner_eq (by rw [shared_decrementStrongAny, hx₁]))
  apply Leads.bind_eq (loadShared_eq (by rw [shared_setShared, Function.update_self]))
  rw [decrementStrongAny_setShared]
  change Leads (through h'.owner addStrongRef)
    (((m.setShared x _).setShared x (some h')).decrementStrongAny h.owner) _
  rw [setShared_idem, ← setShared_idem m x (some ⟨h'.ptr, none⟩), ← decrementStrongAny_setShared]
  have hthrough : through h'.owner addStrongRef = whenSome (ι := ι) (ω := ω) h'.owner addStrongRef := by
    rw [hk']
    rfl
  rw [hthrough]
  have hshare := hrelease.share (x := x) (h := h') (by rw [Function.update_self]; rfl) hy₂
  rw [Function.update_idem] at hshare
  exact Leads.of_eq (addStrongRef_eq (hrelease.alive_of_owner hy₂)) hshare

/-- Two variables exchange what they have. -/
theorem Holds.exchange (hm : Holds ps pw n hs hw m) (hx : ps x = some h) (hy : ps y = some h') :
    Holds (Function.update (Function.update ps y (some h)) x (some h')) pw n hs hw
      ((m.setShared y (some h)).setShared x (some h')) := by
  have hnone := hm.setShared (s := none) x
  rw [hx] at hnone
  obtain rfl | hne := eq_or_ne x y
  · cases hx.symm.trans hy
    rw [Function.update_idem, setShared_idem]
    have hself := hnone.setShared (s := some h) x
    rwa [Function.update_self, Function.update_idem, setShared_idem] at hself
  · have hfirst := hnone.setShared (s := some h) y
    rw [Function.update_of_ne hne.symm, hy] at hfirst
    have hsecond := hfirst.setShared (s := some h') x
    rw [Function.update_of_ne hne, Function.update_self] at hsecond
    rwa [Function.update_comm hne, Function.update_idem, setShared_comm m hne, setShared_idem] at hsecond

theorem swap_spec (hm : Holds ps pw n hs hw m) (hx : ps x = some h) (hy : ps y = some h') :
    Leads (swap x y) m fun _ =>
      Holds (Function.update (Function.update ps y (some h)) x (some h')) pw n hs hw := by
  apply Leads.bind_eq (loadShared_eq (by rw [hm.shared, hy]))
  apply Leads.bind_eq (loadShared_eq (by rw [hm.shared, hx]))
  apply Leads.bind_eq (storeShared_eq (by rw [hm.shared, hy]))
  have hx' : ∃ u, (m.setShared y (some h)).shared x = some u := by
    rw [shared_setShared, hm.shared]
    obtain rfl | hne := eq_or_ne x y
    · exact ⟨h, Function.update_self ..⟩
    · exact ⟨h, by rw [Function.update_of_ne hne, hx]⟩
  obtain ⟨u, hu⟩ := hx'
  exact Leads.of_eq (storeShared_eq hu) (hm.exchange hx hy)

/-- The temporary object takes what the variable had, and is destroyed. -/
theorem resetNew_spec [DecidableEq ω] (hm : Holds ps pw n hs hw m) (hnone : ps none = none) (hx : ps x = some h) :
    Leads (resetNew x) m fun _ => Holds (Function.update ps x (some ⟨some n, some n⟩)) pw (n + 1) hs hw := by
  have hne := (ne_of_some hnone hx).symm
  apply (constructNew_spec hm hnone).bind
  intro _ m₁ hm₁
  apply (swap_spec hm₁ (Function.update_self ..) (by rw [Function.update_of_ne hne.symm, hx])).bind
  intro _ m₂ hm₂
  apply (destroy_spec hm₂ (Function.update_self ..)).mono
  intro _ m₃ hm₃
  have hself : Function.update ps none none = ps := Function.update_eq_self_iff.mpr hnone.symm
  rwa [Function.update_idem, Function.update_comm hne.symm, Function.update_idem, hself] at hm₃

theorem dynamicPointerCast_spec (hm : Holds ps pw n hs hw m) (hx : ps x = none) (hy : ps y = some h) (p : Option ℕ) :
    Leads (dynamicPointerCast x y p) m fun _ =>
      Holds (Function.update ps x (some (if p.isSome then ⟨p, h.owner⟩ else Handle.null))) pw n hs hw := by
  rw [dynamicPointerCast]
  split_ifs
  · exact aliasConstruct_spec hm hx hy p
  · exact createNull_spec hm hx

end XviOs.SharedPtr
