import XviOs.Library.Ownership
import XviOs.Library.Runs
import XviOs.RefcountedPtr.Model

namespace XviOs.RefcountedPtr

open Library.Ownership Library.StateProgram

variable {ι : Type}

/-- The variables are as in `p`, and the counts are those of the variables and of the references that are held. -/
structure Holds (p : Option ι → Option (Option ℕ)) (n : ℕ) (held : List ℕ) (m : Memory ι) : Prop where
  ptr : m.ptr = p
  made : m.made = n
  tally : Tally (fun x => (p x).join) held m.refcount
  fresh : ∀ o, n ≤ o → m.refcount o = 0
  deleted : ∀ o, o ∈ m.deleted ↔ o < n ∧ m.refcount o = 0
  nodup : m.deleted.Nodup

namespace Memory

def incrementAny (m : Memory ι) (q : Option ℕ) : Memory ι := q.elim m m.increment

def decrementAny (m : Memory ι) (q : Option ℕ) : Memory ι := q.elim m m.decrement

end Memory

variable {m : Memory ι} {p : Option ι → Option (Option ℕ)} {n o : ℕ} {held : List ℕ} {x y : Option ι} {q v : Option ℕ}
  {s : Option (Option ℕ)}

@[simp]
theorem ptr_decrementAny (m : Memory ι) (q : Option ℕ) : (m.decrementAny q).ptr = m.ptr := by
  cases q <;> rfl

namespace Holds

theorem alive (h : Holds p n held m) (ho : 0 < m.refcount o) : m.Alive o := by
  refine ⟨?_, fun hmem => ho.ne' ((h.deleted o).mp hmem).2⟩
  rw [h.made]
  by_contra hle
  exact ho.ne' (h.fresh o (Nat.not_lt.mp hle))

/-- What a variable points to has not been deleted. -/
theorem pos_of_owner (h : Holds p n held m) (hx : p x = some (some o)) : 0 < m.refcount o := by
  apply h.tally.pos_of_owner (x := x)
  rw [hx]
  rfl

theorem increment (h : Holds p n held m) (ho : 0 < m.refcount o) : Holds p n (o :: held) (m.increment o) := by
  have hlive := h.alive ho
  refine ⟨h.ptr, h.made, h.tally.take o, fun o' ho' => ?_, fun o' => ?_, h.nodup⟩
  · have hne : o' ≠ o := by
      rintro rfl
      exact ho.ne' (h.fresh _ ho')
    exact (Function.update_of_ne hne _ _).trans (h.fresh o' ho')
  · change o' ∈ m.deleted ↔ o' < n ∧ Function.update m.refcount o (m.refcount o + 1) o' = 0
    obtain rfl | hne := eq_or_ne o' o
    · rw [Function.update_self]
      exact iff_of_false hlive.2 fun hzero => Nat.succ_ne_zero _ hzero.2
    · rw [Function.update_of_ne hne]
      exact h.deleted o'

/-- The object is deleted with its last reference. -/
theorem decrement (h : Holds p n (o :: held) m) : Holds p n held (m.decrement o) := by
  have hpos := h.tally.pos_of_held
  have hlive := h.alive hpos
  refine ⟨h.ptr, h.made, h.tally.drop, fun o' ho' => ?_, fun o' => ?_, ?_⟩
  · have hne : o' ≠ o := by
      rintro rfl
      exact hpos.ne' (h.fresh _ ho')
    exact (Function.update_of_ne hne _ _).trans (h.fresh o' ho')
  · change o' ∈ (if m.refcount o = 1 then o :: m.deleted else m.deleted) ↔
      o' < n ∧ Function.update m.refcount o (m.refcount o - 1) o' = 0
    obtain rfl | hne := eq_or_ne o' o
    · have hn : o' < n := h.made ▸ hlive.1
      rw [Function.update_self]
      split_ifs with hone
      · exact iff_of_true List.mem_cons_self ⟨hn, by omega⟩
      · exact iff_of_false hlive.2 (by omega)
    · rw [Function.update_of_ne hne, ← h.deleted o']
      split_ifs
      · rw [List.mem_cons, or_iff_right hne]
      · rfl
  · change (if m.refcount o = 1 then o :: m.deleted else m.deleted).Nodup
    split_ifs
    · exact List.nodup_cons.mpr ⟨hlive.2, h.nodup⟩
    · exact h.nodup

theorem incrementAny (h : Holds p n held m) (hq : ∀ o ∈ q, 0 < m.refcount o) :
    Holds p n (q.toList ++ held) (m.incrementAny q) := by
  cases q with
  | none => exact h
  | some o => exact h.increment (hq o rfl)

theorem decrementAny (h : Holds p n (q.toList ++ held) m) : Holds p n held (m.decrementAny q) := by
  cases q with
  | none => exact h
  | some o => exact h.decrement

theorem make (h : Holds p n held m) : Holds p (n + 1) (n :: held) m.make := by
  have hzero := h.fresh n (le_refl n)
  have htally := h.tally.take n
  rw [hzero, Nat.zero_add] at htally
  refine ⟨h.ptr, congrArg (· + 1) h.made, ?_, fun o ho => ?_, fun o => ?_, h.nodup⟩
  · change Tally _ _ (Function.update m.refcount m.made 1)
    rwa [h.made]
  · change Function.update m.refcount m.made 1 o = 0
    rw [h.made, Function.update_of_ne (by omega)]
    exact h.fresh o (by omega)
  · change o ∈ m.deleted ↔ o < n + 1 ∧ Function.update m.refcount m.made 1 o = 0
    rw [h.made, h.deleted]
    obtain rfl | hne := eq_or_ne o n
    · rw [Function.update_self]
      omega
    · rw [Function.update_of_ne hne]
      omega

end Holds

theorem load_eq (h : m.ptr x = some q) : load x m = some (q, m) := by rw [load, h]; rfl

theorem whenSome_addRef_eq (h : ∀ o ∈ q, m.Alive o) : whenSome q addRef m = some ((), m.incrementAny q) := by
  cases q with
  | none => rfl
  | some o => exact if_pos (h o rfl)

theorem whenSome_releaseRef_eq (h : ∀ o ∈ q, m.Alive o) : whenSome q releaseRef m = some ((), m.decrementAny q) := by
  cases q with
  | none => rfl
  | some o => exact if_pos (h o rfl)

theorem Holds.alive_of_owner (h : Holds p n held m) (hx : p x = some q) : ∀ o ∈ q, m.Alive o := by
  rintro o rfl
  exact h.alive (h.pos_of_owner hx)

/-- The object of a variable has one reference more, which is held. -/
theorem Holds.incrementOwned (h : Holds p n held m) (hx : p x = some q) :
    Holds p n (q.toList ++ held) (m.incrementAny q) := by
  apply h.incrementAny
  rintro o rfl
  exact h.pos_of_owner hx

theorem ne_of_some (hx : p x = none) (hy : p y = some q) : y ≠ x := by
  rintro rfl
  rw [hx] at hy
  cases hy

variable [DecidableEq ι]

theorem ptr_setPtr (m : Memory ι) (x : Option ι) (s : Option (Option ℕ)) :
    (m.setPtr x s).ptr = Function.update m.ptr x s := rfl

theorem setPtr_incrementAny (m : Memory ι) (x : Option ι) (s : Option (Option ℕ)) (q : Option ℕ) :
    (m.setPtr x s).incrementAny q = (m.incrementAny q).setPtr x s := by
  cases q <;> rfl

theorem setPtr_decrementAny (m : Memory ι) (x : Option ι) (s : Option (Option ℕ)) (q : Option ℕ) :
    (m.decrementAny q).setPtr x s = (m.setPtr x s).decrementAny q := by
  cases q <;> rfl

theorem owner_update (p : Option ι → Option (Option ℕ)) (x : Option ι) (s : Option (Option ℕ)) :
    (fun y => (Function.update p x s y).join) = Function.update (fun y => (p y).join) x s.join := by
  funext y
  obtain rfl | hy := eq_or_ne y x
  · rw [Function.update_self, Function.update_self]
  · rw [Function.update_of_ne hy, Function.update_of_ne hy]

/-- A variable gets a reference that is held, and leaves what it had. -/
theorem Holds.setPtr (h : Holds p n (s.join.toList ++ held) m) (x : Option ι) :
    Holds (Function.update p x s) n ((p x).join.toList ++ held) (m.setPtr x s) := by
  refine ⟨by rw [← h.ptr]; rfl, h.made, ?_, h.fresh, h.deleted, h.nodup⟩
  rw [owner_update]
  exact h.tally.exchange x

theorem store_eq (h : m.ptr x = some q) : store x v m = some ((), m.setPtr x (some v)) := by
  rw [store, h]
  rfl

theorem create_eq (h : m.ptr x = none) : create x v m = some ((), m.setPtr x (some v)) := by
  rw [create, h]
  rfl

theorem remove_eq (h : m.ptr x = some q) : remove x m = some ((), m.setPtr x none) := by
  rw [remove, h]
  rfl

theorem copyConstruct_spec (h : Holds p n held m) (hx : p x = none) (hy : p y = some q) :
    Leads (copyConstruct x y) m fun _ => Holds (Function.update p x (some q)) n held := by
  apply Leads.bind_eq (load_eq (by rw [h.ptr, hy]))
  apply Leads.bind_eq (create_eq (by rw [h.ptr, hx]))
  refine Leads.of_eq (whenSome_addRef_eq (h.alive_of_owner hy)) ?_
  rw [setPtr_incrementAny]
  have hset := (h.incrementOwned hy).setPtr (s := some q) x
  rwa [hx] at hset

/-- A new variable gets what another one had, before that is emptied. -/
theorem Holds.transfer (h : Holds p n held m) (hx : p x = none) (hy : p y = some q) :
    Holds (Function.update (Function.update p y (some none)) x (some q)) n held
      ((m.setPtr x (some q)).setPtr y (some none)) := by
  have hne := ne_of_some hx hy
  have hcomm : (m.setPtr x (some q)).setPtr y (some none) = (m.setPtr y (some none)).setPtr x (some q) := by
    simp only [Memory.setPtr, Function.update_comm hne]
  rw [hcomm]
  have hempty := h.setPtr (s := some none) y
  rw [hy] at hempty
  have hset := hempty.setPtr (s := some q) x
  rwa [Function.update_of_ne hne.symm, hx] at hset

theorem moveConstruct_spec (h : Holds p n held m) (hx : p x = none) (hy : p y = some q) :
    Leads (moveConstruct x y) m fun _ =>
      Holds (Function.update (Function.update p y (some none)) x (some q)) n held := by
  apply Leads.bind_eq (load_eq (by rw [h.ptr, hy]))
  apply Leads.bind_eq (create_eq (by rw [h.ptr, hx]))
  have hy' : (m.setPtr x (some q)).ptr y = some q := by
    rw [ptr_setPtr, Function.update_of_ne (ne_of_some hx hy), h.ptr, hy]
  exact Leads.of_eq (store_eq hy') (h.transfer hx hy)

theorem reset_spec (h : Holds p n held m) (hx : p x = some q) :
    Leads (reset x) m fun _ => Holds (Function.update p x (some none)) n held := by
  apply Leads.bind_eq (load_eq (by rw [h.ptr, hx]))
  apply Leads.bind_eq (whenSome_releaseRef_eq (h.alive_of_owner hx))
  refine Leads.of_eq (store_eq (q := q) (by rw [ptr_decrementAny, h.ptr, hx])) ?_
  rw [setPtr_decrementAny]
  have hset := h.setPtr (s := some none) x
  rw [hx] at hset
  exact hset.decrementAny

theorem destroy_spec (h : Holds p n held m) (hx : p x = some q) :
    Leads (destroy x) m fun _ => Holds (Function.update p x none) n held := by
  apply (reset_spec h hx).bind
  intro _ m' h'
  refine Leads.of_eq (remove_eq (q := none) (by rw [h'.ptr, Function.update_self])) ?_
  have hset := h'.setPtr (s := none) x
  rwa [Function.update_self, Function.update_idem] at hset

theorem copyAssign_spec (h : Holds p n held m) (hx : p x = some v) (hy : p y = some q) :
    Leads (copyAssign x y) m fun _ => Holds (Function.update p x (some q)) n held := by
  have hmore := h.incrementOwned hy
  apply Leads.bind_eq (load_eq (by rw [h.ptr, hy]))
  apply Leads.bind_eq (whenSome_addRef_eq (h.alive_of_owner hy))
  apply Leads.bind_eq (load_eq (by rw [hmore.ptr, hx]))
  apply Leads.bind_eq (whenSome_releaseRef_eq (hmore.alive_of_owner hx))
  apply Leads.bind_eq (load_eq (by rw [ptr_decrementAny, hmore.ptr, hy]))
  refine Leads.of_eq (store_eq (q := v) (by rw [ptr_decrementAny, hmore.ptr, hx])) ?_
  rw [setPtr_decrementAny]
  have hset := hmore.setPtr (s := some q) x
  rw [hx] at hset
  exact hset.decrementAny

/-- The reference that the target had before is still held. -/
theorem moveAssign_spec (h : Holds p n held m) (hx : p x = some v) (hy : p y = some q) :
    Leads (moveAssign x y) m fun _ => Holds (Function.update (Function.update p y (some none)) x (some q)) n
      ((Function.update p y (some none) x).join.toList ++ held) := by
  apply Leads.bind_eq (load_eq (by rw [h.ptr, hy]))
  apply Leads.bind_eq (store_eq (by rw [h.ptr, hy]))
  have hempty := h.setPtr (s := some none) y
  rw [hy] at hempty
  obtain ⟨v', hx'⟩ : ∃ v', Function.update p y (some none) x = some v' := by
    obtain rfl | hne := eq_or_ne x y
    · exact ⟨none, Function.update_self ..⟩
    · exact ⟨v, by rw [Function.update_of_ne hne, hx]⟩
  exact Leads.of_eq (store_eq (by rw [hempty.ptr, hx'])) (hempty.setPtr (s := some q) x)

theorem swap_spec (h : Holds p n held m) (hx : p x = some q) (hy : p y = some v) :
    Leads (swap x y) m fun _ => Holds (Function.update (Function.update p x (some v)) y (some q)) n held := by
  apply Leads.bind_eq (load_eq (by rw [h.ptr, hx]))
  apply Leads.bind_eq (load_eq (by rw [h.ptr, hy]))
  apply Leads.bind_eq (store_eq (by rw [h.ptr, hx]))
  obtain rfl | hne := eq_or_ne y x
  · cases hx.symm.trans hy
    refine Leads.of_eq (store_eq (q := q) (by rw [ptr_setPtr, Function.update_self])) ?_
    have hptr : (m.setPtr y (some q)).setPtr y (some q) = m := by
      simp only [Memory.setPtr, Function.update_idem]
      rw [Function.update_eq_self_iff.mpr (by rw [h.ptr, hy])]
    rw [hptr, Function.update_idem, Function.update_eq_self_iff.mpr hy.symm]
    exact h
  · refine Leads.of_eq (store_eq (q := v) (by rw [ptr_setPtr, Function.update_of_ne hne, h.ptr, hy])) ?_
    -- the variable is emptied first, so that its reference is held while the other gets it
    have hswap : (m.setPtr x (some v)).setPtr y (some q) =
        ((m.setPtr x (some none)).setPtr y (some q)).setPtr x (some v) := by
      simp only [Memory.setPtr, Function.update_comm hne, Function.update_idem]
    have hempty := h.setPtr (s := some none) x
    rw [hx] at hempty
    have hother := hempty.setPtr (s := some q) y
    rw [Function.update_of_ne hne, hy] at hother
    have hset := hother.setPtr (s := some v) x
    rw [Function.update_of_ne hne.symm, Function.update_self, Function.update_comm hne.symm, Function.update_idem,
      Function.update_comm hne] at hset
    rw [hswap]
    exact hset

end XviOs.RefcountedPtr

namespace XviOs.RefcountedPtr

open Library.Ownership Library.StateProgram Library.Refinement

variable {ι : Type} [DecidableEq ι] {m : Memory ι} {p : Option ι → Option (Option ℕ)} {n : ℕ} {x y : Option ι}
  {q v : Option ℕ}

/-- A temporary object is moved from. Nothing must be lost with it. -/
theorem moveTemporary_spec {r : Option ι → Option (Option ℕ)} (hr : r none = none) (hx : r x = some none)
    (h : Holds (Function.update r none (some q)) n [] m) :
    Leads (do
      moveAssign x none
      destroy none) m fun _ => Holds (Function.update r x (some q)) n [] := by
  have hne := ne_of_some hr hx
  apply (moveAssign_spec h (by rw [Function.update_of_ne hne, hx]) (Function.update_self ..)).bind
  intro _ m' h'
  rw [Function.update_idem, Function.update_of_ne hne, hx] at h'
  apply (destroy_spec h' (by rw [Function.update_of_ne hne.symm, Function.update_self])).mono
  intro _ m'' h''
  rw [Function.update_comm hne, Function.update_idem] at h''
  have hself : Function.update r none none = r := Function.update_eq_self_iff.mpr hr.symm
  rwa [hself] at h''

theorem convertCopyAssign_spec (h : Holds p n [] m) (hp : p none = none) (hx : p x = some none) (hy : p y = some q) :
    Leads (convertCopyAssign x y) m fun _ => Holds (Function.update p x (some q)) n [] := by
  apply (copyConstruct_spec h hp hy).bind
  intro _ m' h'
  exact moveTemporary_spec hp hx h'

theorem convertMoveAssign_spec (h : Holds p n [] m) (hp : p none = none) (hx : p x = some none) (hy : p y = some q)
    (hne : x ≠ y) :
    Leads (convertMoveAssign x y) m fun _ =>
      Holds (Function.update (Function.update p y (some none)) x (some q)) n [] := by
  have hnone := (ne_of_some hp hy).symm
  apply (moveConstruct_spec h hp hy).bind
  intro _ m' h'
  apply moveTemporary_spec _ _ h'
  · rw [Function.update_of_ne hnone, hp]
  · rw [Function.update_of_ne hne, hx]

theorem assignPointer_none (h : Holds p n [] m) (hp : p none = none) (hx : p x = some none) :
    Leads (assignPointer x none) m fun _ => Holds p n [] := by
  apply Leads.bind_eq (create_eq (by rw [h.ptr, hp]))
  have hset := h.setPtr (s := some none) none
  rw [hp] at hset
  apply (moveTemporary_spec hp hx hset).mono
  intro _ m' h'
  rwa [Function.update_eq_self_iff.mpr hx.symm] at h'

theorem create_spec {held : List ℕ} (h : Holds p n (q.toList ++ held) m) (hx : p x = none) :
    Leads (create x q) m fun _ => Holds (Function.update p x (some q)) n held := by
  refine Leads.of_eq (create_eq (by rw [h.ptr, hx])) ?_
  have hset := h.setPtr (s := some q) x
  rwa [hx] at hset

theorem createNull_spec {held : List ℕ} (h : Holds p n held m) (hx : p x = none) :
    Leads (create x none) m fun _ => Holds (Function.update p x (some none)) n held := create_spec (q := none) h hx

/-- The address is taken from a pointer and given to another. -/
theorem take_spec {held : List ℕ} (h : Holds p n held m) (hy : p y = some q) :
    Leads (take y) m fun r m' => r = q ∧ Holds (Function.update p y (some none)) n (q.toList ++ held) m' := by
  apply Leads.bind_eq (load_eq (by rw [h.ptr, hy]))
  apply Leads.bind_eq (store_eq (by rw [h.ptr, hy]))
  have hset := h.setPtr (s := some none) y
  rw [hy] at hset
  exact Leads.pure ⟨rfl, hset⟩

theorem pointerCastMove_spec (h : Holds p n [] m) (hx : p x = none) (hy : p y = some q) :
    Leads (pointerCastMove x y) m fun _ =>
      Holds (Function.update (Function.update p y (some none)) x (some q)) n [] := by
  have hne := (ne_of_some hx hy).symm
  apply (take_spec h hy).bind
  rintro _ m' ⟨rfl, h'⟩
  exact create_spec h' (by rw [Function.update_of_ne hne, hx])

/-- A copying cast is right where there is nothing to count. -/
theorem pointerCast_none (h : Holds p n [] m) (hp : p none = none) (hx : p x = none) (hy : p y = some none)
    (hne : x ≠ none) : Leads (pointerCast x y) m fun _ => Holds (Function.update p x (some none)) n [] := by
  have hyx := ne_of_some hx hy
  apply (createNull_spec h hx).bind
  intro _ m' h'
  apply Leads.bind_eq (load_eq (by rw [h'.ptr, Function.update_of_ne hyx, hy]))
  exact assignPointer_none h' (by rw [Function.update_of_ne hne.symm, hp]) (Function.update_self ..)

theorem dynamicPointerCast_none (h : Holds p n [] m) (hx : p x = none) (hy : p y = some q) {succeeds : Bool}
    (hnone : dynamicCast succeeds q = none) :
    Leads (dynamicPointerCast x y succeeds) m fun _ => Holds (Function.update p x (some none)) n [] := by
  have hyx := ne_of_some hx hy
  apply (createNull_spec h hx).bind
  intro _ m' h'
  apply Leads.bind_eq (load_eq (by rw [h'.ptr, Function.update_of_ne hyx, hy]))
  rw [hnone]
  exact Leads.pure h'

theorem dynamicPointerCastMove_spec (h : Holds p n [] m) (hx : p x = none) (hy : p y = some q) (succeeds : Bool) :
    Leads (dynamicPointerCastMove x y succeeds) m fun _ =>
      Holds (if succeeds then Function.update (Function.update p y (some none)) x (some q)
        else Function.update p x (some none)) n [] := by
  apply Leads.bind_eq (load_eq (by rw [h.ptr, hy]))
  cases succeeds with
  | false => exact createNull_spec h hx
  | true =>
    cases q with
    | none =>
      have hself : Function.update p y (some none) = p := Function.update_eq_self_iff.mpr hy.symm
      rw [if_pos rfl, hself]
      exact createNull_spec h hx
    | some o =>
      apply Leads.bind_eq (create_eq (by rw [h.ptr, hx]))
      have hy' : (m.setPtr x (some (some o))).ptr y = some (some o) := by
        rw [ptr_setPtr, Function.update_of_ne (ne_of_some hx hy), h.ptr, hy]
      apply Leads.bind (Q := fun _ => Holds _ n [])
      · apply Leads.bind_eq (load_eq hy')
        apply Leads.bind_eq (store_eq hy')
        exact Leads.pure (h.transfer hx hy)
      · intro _ m' h'
        exact Leads.pure h'

end XviOs.RefcountedPtr
