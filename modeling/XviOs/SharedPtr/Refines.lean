import XviOs.Library.Runs
import XviOs.SharedPtr.Weak

namespace XviOs.SharedPtr

open Library.Ownership Library.StateProgram Library.Refinement

variable {ι ω : Type}

/-- The operations, with the variable that is constructed or assigned first. -/
inductive Command (ι ω : Type)
  | constructNull (x : ι)
  | constructNew (x : ι)
  | aliasConstruct (x y : ι) (p : Option ℕ)
  | copyConstruct (x y : ι)
  | moveConstruct (x y : ι)
  | constructFromWeak (x : ι) (w : ω)
  | copyAssign (x y : ι)
  | moveAssign (x y : ι)
  | swap (x y : ι)
  | reset (x : ι)
  | resetNew (x : ι)
  | destroy (x : ι)
  | pointerCast (x y : ι) (p : Option ℕ)
  | dynamicPointerCast (x y : ι) (p : Option ℕ)
  | lock (x : ι) (w : ω)
  | weakNull (w : ω)
  | weakFromShared (w : ω) (x : ι)
  | weakCopyConstruct (w v : ω)
  | weakMoveConstruct (w v : ω)
  | weakCopyAssign (w v : ω)
  | weakAssignShared (w : ω) (x : ι)
  | weakMoveAssign (w v : ω)
  | weakSwap (w v : ω)
  | weakReset (w : ω)
  | weakDestroy (w : ω)

/-- What each variable has, while it lives, and the number of objects that were made. -/
structure Abstract (ι ω : Type) where
  shared : ι → Option Handle
  weak : ω → Option Handle
  made : ℕ

/-- There is no temporary object between the operations. -/
def extend (p : ι → Option Handle) (x : Option ι) : Option Handle := x.elim none p

variable [DecidableEq ι] [DecidableEq ω]

namespace Abstract

def setShared (a : Abstract ι ω) (x : ι) (s : Option Handle) : Abstract ι ω :=
  { a with shared := Function.update a.shared x s }

def setWeak (a : Abstract ι ω) (w : ω) (s : Option Handle) : Abstract ι ω :=
  { a with weak := Function.update a.weak w s }

/-- The variable gets a new object. -/
def own (a : Abstract ι ω) (x : ι) : Abstract ι ω :=
  { a.setShared x (some ⟨some a.made, some a.made⟩) with made := a.made + 1 }

end Abstract

namespace Command

def run : Command ι ω → Program ι ω Unit
  | constructNull x => createShared x Handle.null
  | constructNew x => SharedPtr.constructNew x
  | aliasConstruct x y p => SharedPtr.aliasConstruct x y p
  | copyConstruct x y => SharedPtr.copyConstruct x y
  | moveConstruct x y => SharedPtr.moveConstruct x y
  | constructFromWeak x w => SharedPtr.constructFromWeak x w
  | copyAssign x y => SharedPtr.copyAssign x y
  | moveAssign x y => SharedPtr.moveAssign x y
  | swap x y => SharedPtr.swap x y
  | reset x => SharedPtr.reset x
  | resetNew x => SharedPtr.resetNew x
  | destroy x => SharedPtr.destroy x
  | pointerCast x y p => SharedPtr.pointerCast x y p
  | dynamicPointerCast x y p => SharedPtr.dynamicPointerCast x y p
  | lock x w => SharedPtr.lock x w
  | weakNull w => createWeak w Handle.null
  | weakFromShared w x => SharedPtr.weakFromShared w x
  | weakCopyConstruct w v => SharedPtr.weakCopyConstruct w v
  | weakMoveConstruct w v => SharedPtr.weakMoveConstruct w v
  | weakCopyAssign w v => SharedPtr.weakCopyAssign w v
  | weakAssignShared w x => SharedPtr.weakAssignShared w x
  | weakMoveAssign w v => SharedPtr.weakMoveAssign w v
  | weakSwap w v => SharedPtr.weakSwap w v
  | weakReset w => SharedPtr.weakReset w
  | weakDestroy w => SharedPtr.weakDestroy w

/-- A variable is constructed once, and is used while it lives. -/
def Valid (a : Abstract ι ω) : Command ι ω → Prop
  | constructNull x | constructNew x => a.shared x = none
  | aliasConstruct x y _ | copyConstruct x y | moveConstruct x y | pointerCast x y _ | dynamicPointerCast x y _ =>
    a.shared x = none ∧ (a.shared y).isSome
  | constructFromWeak x w | lock x w => a.shared x = none ∧ (a.weak w).isSome
  | copyAssign x y | moveAssign x y | swap x y => (a.shared x).isSome ∧ (a.shared y).isSome
  | reset x | resetNew x | destroy x => (a.shared x).isSome
  | weakNull w => a.weak w = none
  | weakFromShared w x => a.weak w = none ∧ (a.shared x).isSome
  | weakCopyConstruct w v | weakMoveConstruct w v => a.weak w = none ∧ (a.weak v).isSome
  | weakAssignShared w x => (a.weak w).isSome ∧ (a.shared x).isSome
  | weakCopyAssign w v | weakMoveAssign w v | weakSwap w v => (a.weak w).isSome ∧ (a.weak v).isSome
  | weakReset w | weakDestroy w => (a.weak w).isSome

/-- What the operation does is right: a pointer that owns nothing is not copied to one that owns an object, nor the other
way, and a pointer is not moved to itself unless it is null. -/
def Sound (a : Abstract ι ω) : Command ι ω → Prop
  | copyAssign x y => ownerOf (a.shared x) = none ↔ ownerOf (a.shared y) = none
  | moveAssign x y => x ≠ y ∨ a.shared x = some Handle.null
  | _ => True

/-- An address that is given is null or within the object that the pointer owns. -/
def Within (a : Abstract ι ω) : Command ι ω → Prop
  | aliasConstruct _ y p | pointerCast _ y p | dynamicPointerCast _ y p => p = none ∨ p = ownerOf (a.shared y)
  | _ => True

end Command

/-- What the operations are for. -/
noncomputable def absStep (a : Abstract ι ω) : Command ι ω → Abstract ι ω
  | .constructNull x | .reset x => a.setShared x (some Handle.null)
  | .constructNew x | .resetNew x => a.own x
  | .aliasConstruct x y p | .pointerCast x y p => a.setShared x ((a.shared y).map fun h => ⟨p, h.owner⟩)
  | .copyConstruct x y | .copyAssign x y => a.setShared x (a.shared y)
  | .moveConstruct x y | .moveAssign x y => (a.setShared y (some Handle.null)).setShared x (a.shared y)
  | .constructFromWeak x w => a.setShared x ((a.weak w).bind (revived (extend a.shared)))
  | .swap x y => (a.setShared y (a.shared x)).setShared x (a.shared y)
  | .destroy x => a.setShared x none
  | .dynamicPointerCast x y p =>
    a.setShared x ((a.shared y).map fun h => if p.isSome then ⟨p, h.owner⟩ else Handle.null)
  | .lock x w => a.setShared x ((a.weak w).map (locked (extend a.shared)))
  | .weakNull w | .weakReset w => a.setWeak w (some Handle.null)
  | .weakFromShared w x | .weakAssignShared w x => a.setWeak w (a.shared x)
  | .weakCopyConstruct w v | .weakCopyAssign w v => a.setWeak w (a.weak v)
  | .weakMoveConstruct w v | .weakMoveAssign w v => (a.setWeak v (some Handle.null)).setWeak w (a.weak v)
  | .weakSwap w v => (a.setWeak w (a.weak v)).setWeak v (a.weak w)
  | .weakDestroy w => a.setWeak w none

def step (m : Memory ι ω) (c : Command ι ω) : Option (Memory ι ω) := (c.run m).map Prod.snd

/-- Before the first operation. -/
def initial (ι ω : Type) : Memory ι ω := ⟨fun _ => none, fun _ => none, fun _ => 0, fun _ => 0, 0, [], []⟩

def absInitial (ι ω : Type) : Abstract ι ω := ⟨fun _ => none, fun _ => none, 0⟩

/-- The counts are those of the pointers that live. -/
def Represents (a : Abstract ι ω) (m : Memory ι ω) : Prop := Holds (extend a.shared) a.weak a.made [] [] m

variable {a : Abstract ι ω} {m : Memory ι ω} {x y : ι} {w v : ω} {h h' : Handle} {p : Program ι ω Unit}
  {s s' : Option Handle}

omit [DecidableEq ω] in
theorem extend_update (q : ι → Option Handle) (x : ι) (s : Option Handle) :
    Function.update (extend q) (some x) s = extend (Function.update q x s) := update_elim_none q x s

omit [DecidableEq ω] in
theorem represents_setShared
    (hp : Leads p m fun _ => Holds (Function.update (extend a.shared) (some x) s) a.weak a.made [] []) :
    Leads p m fun _ => Represents (a.setShared x s) := by
  rwa [extend_update] at hp

omit [DecidableEq ω] in
theorem represents_setShared_two
    (hp : Leads p m fun _ =>
      Holds (Function.update (Function.update (extend a.shared) (some y) s') (some x) s) a.weak a.made [] []) :
    Leads p m fun _ => Represents ((a.setShared y s').setShared x s) := by
  rwa [extend_update, extend_update] at hp

omit [DecidableEq ι] [DecidableEq ω] in
theorem represents_initial : Represents (absInitial ι ω) (initial ι ω) := by
  have hnone : extend (absInitial ι ω).shared = fun _ => none := by
    funext z
    cases z <;> rfl
  refine ⟨hnone.symm, rfl, rfl, fun k => ?_, fun k => ?_, fun k _ => rfl, ?_, ?_, List.nodup_nil, List.nodup_nil⟩
  · rw [hnone]
    simp [ownerOf, initial]
  · have hempty : {z | keeper (absInitial ι ω).weak (initial ι ω).strongRef z = some k} = ∅ := by
      ext z
      cases z <;> simp [keeper, ownerOf, initial, absInitial]
    rw [hempty, Set.encard_empty]
    rfl
  · intro k
    simp [initial, absInitial]
  · intro k
    simp [initial, absInitial]

/-- Each operation that is right does to the pointers what it is for, and keeps the counts. -/
theorem run_spec (hm : Represents a m) (c : Command ι ω) (hvalid : c.Valid a) (hsound : c.Sound a) :
    Leads c.run m fun _ => Represents (absStep a c) := by
  cases c with
  | constructNull x => exact represents_setShared (createNull_spec hm (x := some x) hvalid)
  | constructNew x =>
    apply (constructNew_spec hm (x := some x) hvalid).mono
    intro _ m' hm'
    rwa [extend_update] at hm'
  | aliasConstruct x y p | pointerCast x y p =>
    obtain ⟨h, hy⟩ := Option.isSome_iff_exists.mp hvalid.2
    rw [absStep, hy]
    exact represents_setShared (aliasConstruct_spec hm (x := some x) (y := some y) hvalid.1 hy p)
  | copyConstruct x y =>
    obtain ⟨h, hy⟩ := Option.isSome_iff_exists.mp hvalid.2
    rw [absStep, hy]
    exact represents_setShared (copyConstruct_spec hm (x := some x) (y := some y) hvalid.1 hy)
  | moveConstruct x y =>
    obtain ⟨h, hy⟩ := Option.isSome_iff_exists.mp hvalid.2
    rw [absStep, hy]
    exact represents_setShared_two (moveConstruct_spec hm (x := some x) (y := some y) hvalid.1 hy)
  | constructFromWeak x w =>
    obtain ⟨h, hw⟩ := Option.isSome_iff_exists.mp hvalid.2
    rw [absStep, hw]
    exact represents_setShared (constructFromWeak_spec hm (x := some x) hvalid.1 hw)
  | copyAssign x y =>
    obtain ⟨h, hx⟩ := Option.isSome_iff_exists.mp hvalid.1
    obtain ⟨h', hy⟩ := Option.isSome_iff_exists.mp hvalid.2
    rw [Command.Sound, hx, hy] at hsound
    rw [absStep, hy]
    exact represents_setShared (copyAssign_spec hm (x := some x) (y := some y) hx hy hsound)
  | moveAssign x y =>
    obtain ⟨h, hx⟩ := Option.isSome_iff_exists.mp hvalid.1
    obtain ⟨h', hy⟩ := Option.isSome_iff_exists.mp hvalid.2
    rw [absStep, hy]
    by_cases hne : x = y
    · obtain rfl := hne
      have hnull := hsound.resolve_left (not_not_intro rfl)
      rw [← hy, hnull]
      exact represents_setShared_two (moveAssign_null hm (x := some x) hnull)
    · exact represents_setShared_two
        (moveAssign_spec hm (x := some x) (y := some y) (mt Option.some_inj.mp hne) hx hy)
  | swap x y =>
    obtain ⟨h, hx⟩ := Option.isSome_iff_exists.mp hvalid.1
    obtain ⟨h', hy⟩ := Option.isSome_iff_exists.mp hvalid.2
    rw [absStep, hx, hy]
    exact represents_setShared_two (swap_spec hm (x := some x) (y := some y) hx hy)
  | reset x =>
    obtain ⟨h, hx⟩ := Option.isSome_iff_exists.mp hvalid
    exact represents_setShared (reset_spec hm (x := some x) hx)
  | resetNew x =>
    obtain ⟨h, hx⟩ := Option.isSome_iff_exists.mp hvalid
    apply (resetNew_spec hm rfl (x := some x) hx).mono
    intro _ m' hm'
    rwa [extend_update] at hm'
  | destroy x =>
    obtain ⟨h, hx⟩ := Option.isSome_iff_exists.mp hvalid
    exact represents_setShared (destroy_spec hm (x := some x) hx)
  | dynamicPointerCast x y p =>
    obtain ⟨h, hy⟩ := Option.isSome_iff_exists.mp hvalid.2
    rw [absStep, hy]
    exact represents_setShared (dynamicPointerCast_spec hm (x := some x) (y := some y) hvalid.1 hy p)
  | lock x w =>
    obtain ⟨h, hw⟩ := Option.isSome_iff_exists.mp hvalid.2
    rw [absStep, hw]
    exact represents_setShared (lock_spec hm (x := some x) hvalid.1 hw)
  | weakNull w => exact weakNull_spec hm hvalid
  | weakFromShared w x =>
    obtain ⟨h, hx⟩ := Option.isSome_iff_exists.mp hvalid.2
    rw [absStep, hx]
    exact weakFromShared_spec hm (x := some x) hvalid.1 hx
  | weakCopyConstruct w v =>
    obtain ⟨h, hv⟩ := Option.isSome_iff_exists.mp hvalid.2
    rw [absStep, hv]
    exact weakCopyConstruct_spec hm hvalid.1 hv
  | weakMoveConstruct w v =>
    obtain ⟨h, hv⟩ := Option.isSome_iff_exists.mp hvalid.2
    rw [absStep, hv]
    exact weakMoveConstruct_spec hm hvalid.1 hv
  | weakCopyAssign w v =>
    obtain ⟨h, hw⟩ := Option.isSome_iff_exists.mp hvalid.1
    obtain ⟨h', hv⟩ := Option.isSome_iff_exists.mp hvalid.2
    rw [absStep, hv]
    exact weakCopyAssign_spec hm hw hv
  | weakAssignShared w x =>
    obtain ⟨h, hw⟩ := Option.isSome_iff_exists.mp hvalid.1
    obtain ⟨h', hx⟩ := Option.isSome_iff_exists.mp hvalid.2
    rw [absStep, hx]
    exact weakAssignShared_spec hm (x := some x) hw hx
  | weakMoveAssign w v =>
    obtain ⟨h, hw⟩ := Option.isSome_iff_exists.mp hvalid.1
    obtain ⟨h', hv⟩ := Option.isSome_iff_exists.mp hvalid.2
    rw [absStep, hv]
    exact weakMoveAssign_spec hm hw hv
  | weakSwap w v =>
    obtain ⟨h, hw⟩ := Option.isSome_iff_exists.mp hvalid.1
    obtain ⟨h', hv⟩ := Option.isSome_iff_exists.mp hvalid.2
    rw [absStep, hw, hv]
    exact weakSwap_spec hm hw hv
  | weakReset w =>
    obtain ⟨h, hw⟩ := Option.isSome_iff_exists.mp hvalid
    exact weakReset_spec hm hw
  | weakDestroy w =>
    obtain ⟨h, hw⟩ := Option.isSome_iff_exists.mp hvalid
    exact weakDestroy_spec hm hw

/-- The counts of each control block are the numbers of the variables that live, with one more `weak_ptr` while there is
a `shared_ptr`, and its object and it are deleted once, when there are none. -/
structure Counted (m : Memory ι ω) : Prop where
  strong : ∀ k, (m.strongRef k : ℕ∞) = {x | ownerOf (m.shared x) = some k}.encard
  weak : ∀ k, (m.weakRef k : ℕ∞) = {w | ownerOf (m.weak w) = some k}.encard + if 0 < m.strongRef k then 1 else 0
  kept : ∀ x k, ownerOf (m.shared x) = some k → k ∉ m.deleted ∧ m.Alive k
  watched : ∀ w k, ownerOf (m.weak w) = some k → m.Alive k
  deleted : ∀ k < m.made, (∀ x, ownerOf (m.shared x) ≠ some k) → m.deleted.count k = 1
  freed : ∀ k < m.made, (∀ x, ownerOf (m.shared x) ≠ some k) → (∀ w, ownerOf (m.weak w) ≠ some k) →
    m.freed.count k = 1

omit [DecidableEq ι] [DecidableEq ω] in
theorem encard_keeper (pw : ω → Option Handle) (strongRef : ℕ → ℕ) (k : ℕ) :
    {z | keeper pw strongRef z = some k}.encard =
      {w | ownerOf (pw w) = some k}.encard + if 0 < strongRef k then 1 else 0 := by
  have hsplit : {z | keeper pw strongRef z = some k} =
      Sum.inl '' {w | ownerOf (pw w) = some k} ∪ Sum.inr '' {j | j = k ∧ 0 < strongRef k} := by
    ext z
    cases z with
    | inl w => simp [keeper]
    | inr j =>
      obtain rfl | hne := eq_or_ne j k
      · simp [keeper]
      · simp [keeper, hne]
  have hdisjoint : Disjoint (Sum.inl '' {w | ownerOf (pw w) = some k})
      (Sum.inr '' {j | j = k ∧ 0 < strongRef k}) := by
    rw [Set.disjoint_left]
    rintro _ ⟨w, -, rfl⟩ ⟨j, -, hj⟩
    cases hj
  rw [hsplit, Set.encard_union_eq hdisjoint, Sum.inl_injective.encard_image, Sum.inr_injective.encard_image]
  split_ifs with hpos
  · simp [hpos]
  · simp [hpos]

omit [DecidableEq ι] [DecidableEq ω] in
theorem Represents.counted (hm : Represents a m) : Counted m := by
  have hweak (k : ℕ) : (m.weakRef k : ℕ∞) =
      {w | ownerOf (m.weak w) = some k}.encard + if 0 < m.strongRef k then 1 else 0 := by
    rw [hm.weak, hm.keepers k, List.count_nil, Nat.cast_zero, add_zero, encard_keeper]
  have hlost {k : ℕ} (hnone : ∀ x, ownerOf (m.shared x) ≠ some k) : m.strongRef k = 0 := by
    rw [hm.shared] at hnone
    apply Nat.eq_zero_of_not_pos
    rw [hm.strong_pos_iff]
    rintro ⟨x, hx⟩
    exact hnone x hx
  refine ⟨fun k => ?_, hweak, fun x k hx => ?_, fun w k hw => ?_, fun k hk hnone => ?_, fun k hk hnone hnone' => ?_⟩
  · rw [hm.shared, hm.strong k, List.count_nil, Nat.cast_zero, add_zero]
  · rw [hm.shared] at hx
    have hpos := hm.strong_pos_of_owner hx
    exact ⟨fun hmem => hpos.ne' ((hm.deleted k).mp hmem).2, hm.alive (hm.weakRef_pos hpos)⟩
  · rw [hm.weak] at hw
    exact hm.alive (hm.weak_pos_of_owner hw)
  · exact List.count_eq_one_of_mem hm.deleted_nodup ((hm.deleted k).mpr ⟨hm.made ▸ hk, hlost hnone⟩)
  · have hempty : {w | ownerOf (m.weak w) = some k} = ∅ := by
      ext w
      exact iff_of_false (hnone' w) (Set.notMem_empty w)
    have hzero := hweak k
    rw [hempty, Set.encard_empty, if_neg (by rw [hlost hnone]; exact lt_irrefl 0), zero_add, Nat.cast_eq_zero] at hzero
    exact List.count_eq_one_of_mem hm.freed_nodup ((hm.freed k).mpr ⟨hm.made ▸ hk, hzero⟩)

/-- The address is null or within the object that is owned. -/
def Handle.Inner (h : Handle) : Prop := h.ptr = none ∨ h.ptr = h.owner

def Abstract.Inner (a : Abstract ι ω) : Prop :=
  (∀ x, ∀ h ∈ a.shared x, h.Inner) ∧ ∀ w, ∀ h ∈ a.weak w, h.Inner

omit [DecidableEq ω] in
theorem Abstract.Inner.setShared (ha : a.Inner) (x : ι) (hs : ∀ h ∈ s, h.Inner) : (a.setShared x s).Inner := by
  refine ⟨fun z h hz => ?_, ha.2⟩
  change h ∈ Function.update a.shared x s z at hz
  obtain rfl | hne := eq_or_ne z x
  · rw [Function.update_self] at hz
    exact hs h hz
  · rw [Function.update_of_ne hne] at hz
    exact ha.1 z h hz

omit [DecidableEq ι] in
theorem Abstract.Inner.setWeak (ha : a.Inner) (w : ω) (hs : ∀ h ∈ s, h.Inner) : (a.setWeak w s).Inner := by
  refine ⟨ha.1, fun z h hz => ?_⟩
  change h ∈ Function.update a.weak w s z at hz
  obtain rfl | hne := eq_or_ne z w
  · rw [Function.update_self] at hz
    exact hs h hz
  · rw [Function.update_of_ne hne] at hz
    exact ha.2 z h hz

end XviOs.SharedPtr
