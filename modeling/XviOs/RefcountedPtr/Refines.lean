import XviOs.RefcountedPtr.Runs

namespace XviOs.RefcountedPtr

open Library.Ownership Library.StateProgram Library.Refinement

variable {ι : Type} [DecidableEq ι]

/-- The casts that always give an address of the same object. -/
inductive Cast
  | static
  | const
  | reinterpret

/-- The operations, with the variable that is constructed or assigned first. An address that a pointer is made from is
that of a new object. -/
inductive Command (ι : Type)
  | constructNull (x : ι)
  | constructNew (x : ι)
  | copyConstruct (x y : ι)
  | moveConstruct (x y : ι)
  | convertCopyConstruct (x y : ι)
  | convertMoveConstruct (x y : ι)
  | copyAssign (x y : ι)
  | moveAssign (x y : ι)
  | convertCopyAssign (x y : ι)
  | convertMoveAssign (x y : ι)
  | reset (x : ι)
  | resetNew (x : ι)
  | swap (x y : ι)
  | destroy (x : ι)
  | pointerCast (c : Cast) (x y : ι)
  | pointerCastMove (c : Cast) (x y : ι)
  | dynamicPointerCast (x y : ι) (succeeds : Bool)
  | dynamicPointerCastMove (x y : ι) (succeeds : Bool)

/-- What each variable points to, while it lives, and the number of objects that were made. -/
abbrev Abstract (ι : Type) := (ι → Option (Option ℕ)) × ℕ

namespace Command

def run : Command ι → Program ι Unit
  | constructNull x => create x none
  | constructNew x => do constructPointer x (some (← newObject))
  | copyConstruct x y => RefcountedPtr.copyConstruct x y
  | moveConstruct x y => RefcountedPtr.moveConstruct x y
  | convertCopyConstruct x y => RefcountedPtr.convertCopyConstruct x y
  | convertMoveConstruct x y => RefcountedPtr.convertMoveConstruct x y
  | copyAssign x y => RefcountedPtr.copyAssign x y
  | moveAssign x y => RefcountedPtr.moveAssign x y
  | convertCopyAssign x y => RefcountedPtr.convertCopyAssign x y
  | convertMoveAssign x y => RefcountedPtr.convertMoveAssign x y
  | reset x => RefcountedPtr.reset x
  | resetNew x => do resetPointer x (some (← newObject))
  | swap x y => RefcountedPtr.swap x y
  | destroy x => RefcountedPtr.destroy x
  | pointerCast .static x y => staticPointerCast x y
  | pointerCast .const x y => constPointerCast x y
  | pointerCast .reinterpret x y => reinterpretPointerCast x y
  | pointerCastMove .static x y => staticPointerCastMove x y
  | pointerCastMove .const x y => constPointerCastMove x y
  | pointerCastMove .reinterpret x y => reinterpretPointerCastMove x y
  | dynamicPointerCast x y succeeds => RefcountedPtr.dynamicPointerCast x y succeeds
  | dynamicPointerCastMove x y succeeds => RefcountedPtr.dynamicPointerCastMove x y succeeds

/-- A variable is constructed once, and is used while it lives. The pointers of a conversion have two types. -/
def Valid (a : Abstract ι) : Command ι → Prop
  | constructNull x | constructNew x => a.1 x = none
  | copyConstruct x y | moveConstruct x y | convertCopyConstruct x y | convertMoveConstruct x y
  | pointerCast _ x y | pointerCastMove _ x y | dynamicPointerCast x y _ | dynamicPointerCastMove x y _ =>
    a.1 x = none ∧ (a.1 y).isSome
  | copyAssign x y | moveAssign x y | swap x y => (a.1 x).isSome ∧ (a.1 y).isSome
  | convertCopyAssign x y | convertMoveAssign x y => (a.1 x).isSome ∧ (a.1 y).isSome ∧ x ≠ y
  | reset x | resetNew x | destroy x => (a.1 x).isSome

/-- What the operation does is right: an assignment that moves, also from a temporary object, is to a null pointer or to
the pointer itself, and a cast that copies gives a null pointer. -/
def Sound (a : Abstract ι) : Command ι → Prop
  | moveAssign x y => x = y ∨ a.1 x = some none
  | convertCopyAssign x _ | convertMoveAssign x _ => a.1 x = some none
  | pointerCast _ _ y => a.1 y = some none
  | dynamicPointerCast _ y succeeds => succeeds = false ∨ a.1 y = some none
  | _ => True

end Command

/-- What the operations are for. -/
def absStep (a : Abstract ι) : Command ι → Abstract ι
  | .constructNull x | .reset x => (Function.update a.1 x (some none), a.2)
  | .constructNew x | .resetNew x => (Function.update a.1 x (some (some a.2)), a.2 + 1)
  | .copyConstruct x y | .convertCopyConstruct x y | .pointerCast _ x y | .copyAssign x y | .convertCopyAssign x y =>
    (Function.update a.1 x (a.1 y), a.2)
  | .moveConstruct x y | .convertMoveConstruct x y | .pointerCastMove _ x y | .moveAssign x y
  | .convertMoveAssign x y => (Function.update (Function.update a.1 y (some none)) x (a.1 y), a.2)
  | .swap x y => (Function.update (Function.update a.1 x (a.1 y)) y (a.1 x), a.2)
  | .destroy x => (Function.update a.1 x none, a.2)
  | .dynamicPointerCast x y succeeds => (Function.update a.1 x (if succeeds then a.1 y else some none), a.2)
  | .dynamicPointerCastMove x y succeeds =>
    (if succeeds then Function.update (Function.update a.1 y (some none)) x (a.1 y)
      else Function.update a.1 x (some none), a.2)

def step (m : Memory ι) (c : Command ι) : Option (Memory ι) := (c.run m).map Prod.snd

/-- Before the first operation. -/
def initial (ι : Type) : Memory ι := ⟨fun _ => none, fun _ => 0, 0, []⟩

def absInitial (ι : Type) : Abstract ι := (fun _ => none, 0)

/-- There is no temporary object between the operations. -/
def extend (p : ι → Option (Option ℕ)) (x : Option ι) : Option (Option ℕ) := x.elim none p

/-- The counts are those of the pointers that live. -/
def Represents (a : Abstract ι) (m : Memory ι) : Prop := Holds (extend a.1) a.2 [] m

theorem extend_update (p : ι → Option (Option ℕ)) (x : ι) (s : Option (Option ℕ)) :
    Function.update (extend p) (some x) s = extend (Function.update p x s) := update_elim_none p x s

omit [DecidableEq ι] in
theorem represents_initial : Represents (absInitial ι) (initial ι) := by
  refine ⟨?_, rfl, ?_, fun o _ => rfl, ?_, List.nodup_nil⟩
  · funext z
    cases z <;> rfl
  · intro o
    have hempty : {x : Option ι | (extend (absInitial ι).1 x).join = some o} = ∅ := by
      ext z
      cases z <;> simp [extend, absInitial]
    rw [hempty, Set.encard_empty, zero_add]
    rfl
  · intro o
    simp [initial, absInitial]

theorem constructNew_spec {a : Abstract ι} {m : Memory ι} (h : Represents a m) {x : ι} (hx : a.1 x = none) :
    Leads ((Command.constructNew x).run) m fun _ m' => Represents (absStep a (.constructNew x)) m' := by
  apply Leads.bind_eq (show newObject m = some (m.made, m.make) from rfl)
  rw [h.made]
  apply (create_spec (q := some a.2) h.make (x := some x) hx).mono
  intro _ m' h'
  rwa [extend_update] at h'

theorem resetNew_spec {a : Abstract ι} {m : Memory ι} (h : Represents a m) {x : ι} {q : Option ℕ}
    (hx : a.1 x = some q) :
    Leads ((Command.resetNew x).run) m fun _ m' => Represents (absStep a (.resetNew x)) m' := by
  apply Leads.bind_eq (show newObject m = some (m.made, m.make) from rfl)
  rw [h.made]
  apply (reset_spec h.make (x := some x) hx).bind
  intro _ m' h'
  refine Leads.of_eq (store_eq (q := none) (by rw [h'.ptr, Function.update_self])) ?_
  have hset := h'.setPtr (s := some (some a.2)) (some x)
  rwa [Function.update_self, Function.update_idem, extend_update] at hset

/-- Each operation that is right does to the pointers what it is for, and keeps the counts. -/
theorem run_spec {a : Abstract ι} {m : Memory ι} (h : Represents a m) (c : Command ι) (hvalid : c.Valid a)
    (hsound : c.Sound a) : Leads c.run m fun _ m' => Represents (absStep a c) m' := by
  have htwo {x y : ι} {u v : Option (Option ℕ)} :
      Function.update (Function.update (extend a.1) (some y) u) (some x) v =
        extend (Function.update (Function.update a.1 y u) x v) := by
    rw [extend_update, extend_update]
  have hone {x : ι} {u : Option (Option ℕ)} := extend_update a.1 x u
  cases c with
  | constructNull x =>
    apply (createNull_spec h (x := some x) hvalid).mono
    intro _ m' h'
    rwa [hone] at h'
  | constructNew x => exact constructNew_spec h hvalid
  | copyConstruct x y =>
    obtain ⟨q, hq⟩ := Option.isSome_iff_exists.mp hvalid.2
    apply (copyConstruct_spec h (x := some x) (y := some y) hvalid.1 hq).mono
    intro _ m' h'
    rwa [hone, ← hq] at h'
  | moveConstruct x y =>
    obtain ⟨q, hq⟩ := Option.isSome_iff_exists.mp hvalid.2
    apply (moveConstruct_spec h (x := some x) (y := some y) hvalid.1 hq).mono
    intro _ m' h'
    rwa [htwo, ← hq] at h'
  | convertCopyConstruct x y =>
    obtain ⟨q, hq⟩ := Option.isSome_iff_exists.mp hvalid.2
    apply (copyConstruct_spec h (x := some x) (y := some y) hvalid.1 hq).mono
    intro _ m' h'
    rwa [hone, ← hq] at h'
  | convertMoveConstruct x y =>
    obtain ⟨q, hq⟩ := Option.isSome_iff_exists.mp hvalid.2
    apply (moveConstruct_spec h (x := some x) (y := some y) hvalid.1 hq).mono
    intro _ m' h'
    rwa [htwo, ← hq] at h'
  | copyAssign x y =>
    obtain ⟨v, hv⟩ := Option.isSome_iff_exists.mp hvalid.1
    obtain ⟨q, hq⟩ := Option.isSome_iff_exists.mp hvalid.2
    apply (copyAssign_spec h (x := some x) (y := some y) hv hq).mono
    intro _ m' h'
    rwa [hone, ← hq] at h'
  | moveAssign x y =>
    obtain ⟨v, hv⟩ := Option.isSome_iff_exists.mp hvalid.1
    obtain ⟨q, hq⟩ := Option.isSome_iff_exists.mp hvalid.2
    apply (moveAssign_spec h (x := some x) (y := some y) hv hq).mono
    intro _ m' h'
    have hlost : (Function.update (extend a.1) (some y) (some none) (some x)).join = none := by
      obtain rfl | hne := eq_or_ne x y
      · rw [Function.update_self]
        rfl
      · rw [Function.update_of_ne (mt Option.some_inj.mp hne)]
        exact congrArg Option.join (hsound.resolve_left hne)
    rwa [hlost, htwo, ← hq] at h'
  | convertCopyAssign x y =>
    obtain ⟨q, hq⟩ := Option.isSome_iff_exists.mp hvalid.2.1
    apply (convertCopyAssign_spec h (x := some x) (y := some y) rfl hsound hq).mono
    intro _ m' h'
    rwa [hone, ← hq] at h'
  | convertMoveAssign x y =>
    obtain ⟨q, hq⟩ := Option.isSome_iff_exists.mp hvalid.2.1
    apply (convertMoveAssign_spec h (x := some x) (y := some y) rfl hsound hq (mt Option.some_inj.mp hvalid.2.2)).mono
    intro _ m' h'
    rwa [htwo, ← hq] at h'
  | reset x =>
    obtain ⟨q, hq⟩ := Option.isSome_iff_exists.mp hvalid
    apply (reset_spec h (x := some x) hq).mono
    intro _ m' h'
    rwa [hone] at h'
  | resetNew x =>
    obtain ⟨q, hq⟩ := Option.isSome_iff_exists.mp hvalid
    exact resetNew_spec h hq
  | swap x y =>
    obtain ⟨q, hq⟩ := Option.isSome_iff_exists.mp hvalid.1
    obtain ⟨v, hv⟩ := Option.isSome_iff_exists.mp hvalid.2
    apply (swap_spec h (x := some x) (y := some y) hq hv).mono
    intro _ m' h'
    rwa [htwo, ← hq, ← hv] at h'
  | destroy x =>
    obtain ⟨q, hq⟩ := Option.isSome_iff_exists.mp hvalid
    apply (destroy_spec h (x := some x) hq).mono
    intro _ m' h'
    rwa [hone] at h'
  | pointerCast c x y =>
    have hcast := pointerCast_none h rfl (x := some x) (y := some y) hvalid.1 hsound (Option.some_ne_none x)
    have hmono : Leads (pointerCast (some x) (some y)) m fun _ m' => Represents (absStep a (.pointerCast c x y)) m' := by
      apply hcast.mono
      intro _ m' h'
      rw [hone] at h'
      rw [absStep, hsound]
      exact h'
    cases c <;> exact hmono
  | pointerCastMove c x y =>
    obtain ⟨q, hq⟩ := Option.isSome_iff_exists.mp hvalid.2
    have hmono : Leads (pointerCastMove (some x) (some y)) m fun _ m' =>
        Represents (absStep a (.pointerCastMove c x y)) m' := by
      apply (pointerCastMove_spec h (x := some x) (y := some y) hvalid.1 hq).mono
      intro _ m' h'
      rwa [htwo, ← hq] at h'
    cases c <;> exact hmono
  | dynamicPointerCast x y succeeds =>
    obtain ⟨q, hq⟩ := Option.isSome_iff_exists.mp hvalid.2
    have hnone : dynamicCast succeeds q = none := by
      obtain rfl | hnull := hsound
      · rfl
      · cases hq.symm.trans hnull
        cases succeeds <;> rfl
    have hcast : (if succeeds then a.1 y else some none) = some none := by
      obtain rfl | hnull := hsound
      · rfl
      · rw [hnull]
        cases succeeds <;> rfl
    apply (dynamicPointerCast_none h (x := some x) (y := some y) hvalid.1 hq hnone).mono
    intro _ m' h'
    rw [hone] at h'
    rw [absStep, hcast]
    exact h'
  | dynamicPointerCastMove x y succeeds =>
    obtain ⟨q, hq⟩ := Option.isSome_iff_exists.mp hvalid.2
    apply (dynamicPointerCastMove_spec h (x := some x) (y := some y) hvalid.1 hq succeeds).mono
    intro _ m' h'
    rw [htwo, hone, ← hq, ← apply_ite extend] at h'
    exact h'

/-- The count of each object is the number of the pointers to it that live, and an object is deleted once, when there is
none. -/
structure Counted (m : Memory ι) : Prop where
  count : ∀ o, (m.refcount o : ℕ∞) = {x | (m.ptr x).join = some o}.encard
  kept : ∀ x o, (m.ptr x).join = some o → m.Alive o
  deleted : ∀ o < m.made, (∀ x, (m.ptr x).join ≠ some o) → m.deleted.count o = 1

omit [DecidableEq ι] in
theorem Represents.counted {a : Abstract ι} {m : Memory ι} (h : Represents a m) : Counted m := by
  have hcount (o : ℕ) : (m.refcount o : ℕ∞) = {x | (m.ptr x).join = some o}.encard := by
    rw [h.ptr, h.tally o, List.count_nil, Nat.cast_zero, add_zero]
  refine ⟨hcount, fun x o hx => ?_, fun o ho hnone => ?_⟩
  · apply h.alive
    apply h.tally.pos_of_owner (x := x)
    rwa [← h.ptr]
  · have hempty : {x | (m.ptr x).join = some o} = ∅ := by
      ext x
      exact iff_of_false (hnone x) (Set.notMem_empty x)
    have hzero := hcount o
    rw [hempty, Set.encard_empty, Nat.cast_eq_zero] at hzero
    exact List.count_eq_one_of_mem h.nodup ((h.deleted o).mpr ⟨h.made ▸ ho, hzero⟩)

end XviOs.RefcountedPtr
