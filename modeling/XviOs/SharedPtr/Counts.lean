import XviOs.Library.Ownership
import XviOs.SharedPtr.Model

namespace XviOs.SharedPtr

open Library.Ownership Library.StateProgram

variable {ι ω : Type}

/-- The control block of a variable, while that lives. -/
def ownerOf (h : Option Handle) : Option ℕ := h.bind Handle.owner

/-- What keeps a control block: the `weak_ptr`s, and the block itself while it has a `shared_ptr`. -/
def keeper (pw : ω → Option Handle) (strongRef : ℕ → ℕ) : ω ⊕ ℕ → Option ℕ :=
  Sum.elim (fun w => ownerOf (pw w)) fun k => if 0 < strongRef k then some k else none

/-- The variables are as given, and the counts are those of the variables and of the references that are held. -/
structure Holds (ps : Option ι → Option Handle) (pw : ω → Option Handle) (n : ℕ) (hs hw : List ℕ) (m : Memory ι ω) :
    Prop where
  shared : m.shared = ps
  weak : m.weak = pw
  made : m.made = n
  strong : Tally (fun x => ownerOf (ps x)) hs m.strongRef
  keepers : Tally (keeper pw m.strongRef) hw m.weakRef
  fresh : ∀ k, n ≤ k → m.weakRef k = 0
  deleted : ∀ k, k ∈ m.deleted ↔ k < n ∧ m.strongRef k = 0
  freed : ∀ k, k ∈ m.freed ↔ k < n ∧ m.weakRef k = 0
  deleted_nodup : m.deleted.Nodup
  freed_nodup : m.freed.Nodup

variable {m : Memory ι ω} {ps : Option ι → Option Handle} {pw : ω → Option Handle} {n k : ℕ} {hs hw : List ℕ}
  {x y : Option ι} {w v : ω} {h h' : Handle} {q : Option ℕ} {s : Option Handle}

theorem keeper_update_of_pos (pw : ω → Option Handle) {strongRef : ℕ → ℕ} {c : ℕ} (hpos : 0 < strongRef k) (hc : 0 < c) :
    keeper pw (Function.update strongRef k c) = keeper pw strongRef := by
  funext z
  cases z with
  | inl w => rfl
  | inr k' =>
    obtain rfl | hne := eq_or_ne k' k
    · simp [keeper, hpos, hc]
    · simp [keeper, hne]

namespace Holds

theorem alive (hm : Holds ps pw n hs hw m) (hk : 0 < m.weakRef k) : m.Alive k := by
  refine ⟨?_, fun hmem => hk.ne' ((hm.freed k).mp hmem).2⟩
  rw [hm.made]
  by_contra hle
  exact hk.ne' (hm.fresh k (Nat.not_lt.mp hle))

theorem weakRef_pos (hm : Holds ps pw n hs hw m) (hk : 0 < m.strongRef k) : 0 < m.weakRef k :=
  hm.keepers.pos_of_owner (x := Sum.inr k) (if_pos hk)

theorem fresh_strong (hm : Holds ps pw n hs hw m) (hk : n ≤ k) : m.strongRef k = 0 := by
  by_contra hne
  exact (hm.weakRef_pos (Nat.pos_of_ne_zero hne)).ne' (hm.fresh k hk)

theorem strong_pos_of_owner (hm : Holds ps pw n hs hw m) (hx : ownerOf (ps x) = some k) : 0 < m.strongRef k :=
  hm.strong.pos_of_owner hx

theorem weak_pos_of_owner (hm : Holds ps pw n hs hw m) (hw' : ownerOf (pw w) = some k) : 0 < m.weakRef k :=
  hm.keepers.pos_of_owner (x := Sum.inl w) hw'

theorem incrementStrong (hm : Holds ps pw n hs hw m) (hk : 0 < m.strongRef k) :
    Holds ps pw n (k :: hs) hw (m.incrementStrong k) := by
  refine ⟨hm.shared, hm.weak, hm.made, hm.strong.take k, ?_, hm.fresh, fun k' => ?_, hm.freed, hm.deleted_nodup,
    hm.freed_nodup⟩
  · change Tally (keeper pw (Function.update m.strongRef k (m.strongRef k + 1))) hw m.weakRef
    rw [keeper_update_of_pos pw hk (Nat.succ_pos _)]
    exact hm.keepers
  · change k' ∈ m.deleted ↔ k' < n ∧ Function.update m.strongRef k (m.strongRef k + 1) k' = 0
    rw [hm.deleted k']
    obtain rfl | hne := eq_or_ne k' k
    · rw [Function.update_self]
      omega
    · rw [Function.update_of_ne hne]

theorem incrementWeak (hm : Holds ps pw n hs hw m) (hk : 0 < m.weakRef k) :
    Holds ps pw n hs (k :: hw) (m.incrementWeak k) := by
  have hlive := hm.alive hk
  refine ⟨hm.shared, hm.weak, hm.made, hm.strong, hm.keepers.take k, fun k' hk' => ?_, hm.deleted, fun k' => ?_,
    hm.deleted_nodup, hm.freed_nodup⟩
  · have hne : k' ≠ k := by
      rintro rfl
      exact hk.ne' (hm.fresh _ hk')
    exact (Function.update_of_ne hne _ _).trans (hm.fresh k' hk')
  · change k' ∈ m.freed ↔ k' < n ∧ Function.update m.weakRef k (m.weakRef k + 1) k' = 0
    rw [hm.freed k']
    obtain rfl | hne := eq_or_ne k' k
    · rw [Function.update_self]
      omega
    · rw [Function.update_of_ne hne]

theorem decrementWeak (hm : Holds ps pw n hs (k :: hw) m) : Holds ps pw n hs hw (m.decrementWeak k) := by
  have hpos := hm.keepers.pos_of_held
  have hlive := hm.alive hpos
  refine ⟨hm.shared, hm.weak, hm.made, hm.strong, hm.keepers.drop, fun k' hk' => ?_, hm.deleted, fun k' => ?_,
    hm.deleted_nodup, ?_⟩
  · have hne : k' ≠ k := by
      rintro rfl
      exact hpos.ne' (hm.fresh _ hk')
    exact (Function.update_of_ne hne _ _).trans (hm.fresh k' hk')
  · change k' ∈ (if m.weakRef k = 1 then k :: m.freed else m.freed) ↔
      k' < n ∧ Function.update m.weakRef k (m.weakRef k - 1) k' = 0
    obtain rfl | hne := eq_or_ne k' k
    · have hn : k' < n := hm.made ▸ hlive.1
      rw [Function.update_self]
      split_ifs with hone
      · exact iff_of_true List.mem_cons_self ⟨hn, by omega⟩
      · exact iff_of_false hlive.2 (by omega)
    · rw [Function.update_of_ne hne, ← hm.freed k']
      split_ifs
      · rw [List.mem_cons, or_iff_right hne]
      · rfl
  · change (if m.weakRef k = 1 then k :: m.freed else m.freed).Nodup
    split_ifs
    · exact List.nodup_cons.mpr ⟨hlive.2, hm.freed_nodup⟩
    · exact hm.freed_nodup

end Holds

/-- The last `shared_ptr` is gone, and the block does not keep itself any more. -/
theorem keeper_update_zero (pw : ω → Option Handle) (strongRef : ℕ → ℕ) (k : ℕ) [DecidableEq ω] :
    keeper pw (Function.update strongRef k 0) = Function.update (keeper pw strongRef) (Sum.inr k) none := by
  funext z
  cases z with
  | inl w => rw [Function.update_of_ne (by simp)]; rfl
  | inr k' =>
    obtain rfl | hne := eq_or_ne k' k
    · simp [keeper]
    · rw [Function.update_of_ne (by simpa using hne)]
      simp [keeper, hne]

theorem Holds.decrementStrong [DecidableEq ω] (hm : Holds ps pw n (k :: hs) hw m) :
    Holds ps pw n hs hw (m.decrementStrong k) := by
  have hpos := hm.strong.pos_of_held
  have hlive := hm.alive (hm.weakRef_pos hpos)
  have hn : k < n := hm.made ▸ hlive.1
  rw [Memory.decrementStrong]
  split_ifs with hone
  · apply Holds.decrementWeak
    have hexchange := hm.keepers.exchange (v := none) (Sum.inr k)
    have hkeeps : keeper pw m.strongRef (Sum.inr k) = some k := if_pos hpos
    rw [← keeper_update_zero, hkeeps] at hexchange
    refine ⟨hm.shared, hm.weak, hm.made, hm.strong.drop, ?_, hm.fresh, fun k' => ?_, hm.freed, ?_, hm.freed_nodup⟩
    · change Tally (keeper pw (Function.update m.strongRef k (m.strongRef k - 1))) (k :: hw) m.weakRef
      rw [hone]
      exact hexchange
    · change k' ∈ k :: m.deleted ↔ k' < n ∧ Function.update m.strongRef k (m.strongRef k - 1) k' = 0
      rw [List.mem_cons, hm.deleted k']
      obtain rfl | hne := eq_or_ne k' k
      · rw [Function.update_self]
        exact iff_of_true (Or.inl rfl) ⟨hn, by omega⟩
      · rw [Function.update_of_ne hne, or_iff_right hne]
    · refine List.nodup_cons.mpr ⟨fun hmem => ?_, hm.deleted_nodup⟩
      exact hpos.ne' ((hm.deleted k).mp hmem).2
  · refine ⟨hm.shared, hm.weak, hm.made, hm.strong.drop, ?_, hm.fresh, fun k' => ?_, hm.freed, hm.deleted_nodup,
      hm.freed_nodup⟩
    · change Tally (keeper pw (Function.update m.strongRef k (m.strongRef k - 1))) hw m.weakRef
      rw [keeper_update_of_pos pw hpos (by omega)]
      exact hm.keepers
    · change k' ∈ m.deleted ↔ k' < n ∧ Function.update m.strongRef k (m.strongRef k - 1) k' = 0
      rw [hm.deleted k']
      obtain rfl | hne := eq_or_ne k' k
      · rw [Function.update_self]
        omega
      · rw [Function.update_of_ne hne]

/-- The new block keeps itself. -/
theorem Holds.make [DecidableEq ω] (hm : Holds ps pw n hs hw m) : Holds ps pw (n + 1) (n :: hs) hw m.make := by
  have hstrong := hm.fresh_strong (le_refl n)
  have hweak := hm.fresh n (le_refl n)
  have hmade : m.make = { m with
      strongRef := Function.update m.strongRef n (m.strongRef n + 1)
      weakRef := Function.update m.weakRef n (m.weakRef n + 1)
      made := n + 1 } := by
    rw [Memory.make, hm.made, hstrong, hweak]
  have hkeeper : keeper pw (Function.update m.strongRef n (m.strongRef n + 1)) =
      Function.update (keeper pw m.strongRef) (Sum.inr n) (some n) := by
    funext z
    cases z with
    | inl w => rw [Function.update_of_ne (by simp)]; rfl
    | inr k' =>
      obtain rfl | hne := eq_or_ne k' n
      · simp [keeper]
      · rw [Function.update_of_ne (by simpa using hne)]
        simp [keeper, hne]
  have hexchange := (hm.keepers.take n).exchange (v := some n) (Sum.inr n)
  have hnone : keeper pw m.strongRef (Sum.inr n) = none := if_neg (by omega)
  rw [hnone, ← hkeeper] at hexchange
  rw [hmade]
  refine ⟨hm.shared, hm.weak, rfl, hm.strong.take n, hexchange, fun k hk => ?_, fun k => ?_, fun k => ?_,
    hm.deleted_nodup, hm.freed_nodup⟩
  · exact (Function.update_of_ne (by omega) _ _).trans (hm.fresh k (by omega))
  · change k ∈ m.deleted ↔ k < n + 1 ∧ Function.update m.strongRef n (m.strongRef n + 1) k = 0
    rw [hm.deleted]
    obtain rfl | hne := eq_or_ne k n
    · rw [Function.update_self]
      omega
    · rw [Function.update_of_ne hne]
      omega
  · change k ∈ m.freed ↔ k < n + 1 ∧ Function.update m.weakRef n (m.weakRef n + 1) k = 0
    rw [hm.freed]
    obtain rfl | hne := eq_or_ne k n
    · rw [Function.update_self]
      omega
    · rw [Function.update_of_ne hne]
      omega

namespace Memory

def incrementStrongAny (m : Memory ι ω) (q : Option ℕ) : Memory ι ω := q.elim m m.incrementStrong

def decrementStrongAny (m : Memory ι ω) (q : Option ℕ) : Memory ι ω := q.elim m m.decrementStrong

def incrementWeakAny (m : Memory ι ω) (q : Option ℕ) : Memory ι ω := q.elim m m.incrementWeak

def decrementWeakAny (m : Memory ι ω) (q : Option ℕ) : Memory ι ω := q.elim m m.decrementWeak

end Memory

theorem Holds.incrementStrongAny (hm : Holds ps pw n hs hw m) (hq : ownerOf (ps x) = q) :
    Holds ps pw n (q.toList ++ hs) hw (m.incrementStrongAny q) := by
  cases q with
  | none => exact hm
  | some k => exact hm.incrementStrong (hm.strong_pos_of_owner hq)

theorem Holds.decrementStrongAny [DecidableEq ω] (hm : Holds ps pw n (q.toList ++ hs) hw m) :
    Holds ps pw n hs hw (m.decrementStrongAny q) := by
  cases q with
  | none => exact hm
  | some k => exact hm.decrementStrong

theorem Holds.incrementWeakAny (hm : Holds ps pw n hs hw m) (hq : ∀ k ∈ q, 0 < m.weakRef k) :
    Holds ps pw n hs (q.toList ++ hw) (m.incrementWeakAny q) := by
  cases q with
  | none => exact hm
  | some k => exact hm.incrementWeak (hq k rfl)

theorem Holds.decrementWeakAny (hm : Holds ps pw n hs (q.toList ++ hw) m) :
    Holds ps pw n hs hw (m.decrementWeakAny q) := by
  cases q with
  | none => exact hm
  | some k => exact hm.decrementWeak

/-- A variable gets a reference that is held, and leaves what it had. -/
theorem Holds.setShared [DecidableEq ι] (hm : Holds ps pw n ((ownerOf s).toList ++ hs) hw m) (x : Option ι) :
    Holds (Function.update ps x s) pw n ((ownerOf (ps x)).toList ++ hs) hw (m.setShared x s) := by
  have howner : (fun z => ownerOf (Function.update ps x s z)) =
      Function.update (fun z => ownerOf (ps z)) x (ownerOf s) := by
    funext z
    exact Function.apply_update (fun _ => ownerOf) ps x s z
  refine ⟨by rw [← hm.shared]; rfl, hm.weak, hm.made, ?_, hm.keepers, hm.fresh, hm.deleted, hm.freed, hm.deleted_nodup,
    hm.freed_nodup⟩
  rw [howner]
  exact hm.strong.exchange x

theorem Holds.setWeak [DecidableEq ω] (hm : Holds ps pw n hs ((ownerOf s).toList ++ hw) m) (w : ω) :
    Holds ps (Function.update pw w s) n hs ((ownerOf (pw w)).toList ++ hw) (m.setWeak w s) := by
  have hkeeper : keeper (Function.update pw w s) m.strongRef =
      Function.update (keeper pw m.strongRef) (Sum.inl w) (ownerOf s) := by
    funext z
    cases z with
    | inl v =>
      obtain rfl | hne := eq_or_ne v w
      · simp [keeper]
      · rw [Function.update_of_ne (by simpa using hne)]
        simp [keeper, hne]
    | inr k => rw [Function.update_of_ne (by simp)]; rfl
  refine ⟨hm.shared, by rw [← hm.weak]; rfl, hm.made, hm.strong, ?_, hm.fresh, hm.deleted, hm.freed, hm.deleted_nodup,
    hm.freed_nodup⟩
  change Tally (keeper (Function.update pw w s) m.strongRef) _ _
  rw [hkeeper]
  exact hm.keepers.exchange (Sum.inl w)

end XviOs.SharedPtr
