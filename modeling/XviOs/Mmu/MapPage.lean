import XviOs.Mmu.Address
import XviOs.Mmu.EntrySpec

namespace XviOs.Mmu

namespace Memory

variable {mem : Memory} {p q i j raw : Nat}

theorem write_self : mem.write p i raw p i = raw := by
  rw [write, Function.update_self, Function.update_self]

theorem write_of_ne (h : q = p → j ≠ i) : mem.write p i raw q j = mem q j := by
  rw [write]
  by_cases hq : q = p
  · subst hq
    rw [Function.update_self, Function.update_of_ne (h rfl)]
  · rw [Function.update_of_ne hq]

end Memory

namespace Hardware

variable {m : PagingMode} {mem : Memory} {a level table raw : Nat} {r : Rights} {t : Translation}

/-- A walk ends at the lowest level, or at one that has large pages. -/
theorem level_of_walk (h : walk m mem a level table r = some t) : t.level = 0 ∨ largeLevel m t.level = true := by
  induction level generalizing table r with
  | zero =>
      rw [walk] at h
      split at h
      · cases h
        exact Or.inl rfl
      · cases h
  | succ level ih =>
      rw [walk] at h
      split at h
      · split at h
        · split at h
          · cases h
            exact Or.inr ‹_›
          · cases h
        · exact ih h
      · cases h

theorem walk_absent (h : present (mem table (m.indexForAddress level a)) = false) : walk m mem a level table r = none := by
  cases level with
  | zero => rw [walk, if_neg (by rw [h]; exact Bool.false_ne_true)]
  | succ level => rw [walk, if_neg (by rw [h]; exact Bool.false_ne_true)]

/-- A walk stops at the entry for a page. -/
theorem walk_page (hraw : mem table (m.indexForAddress level a) = raw) (hpresent : present raw = true)
    (hlarge : large level raw = decide (0 < level)) (hlevel : level = 0 ∨ largeLevel m level = true) :
    walk m mem a level table r = some ⟨level, raw, r.inter (rights m level raw)⟩ := by
  cases level with
  | zero => rw [walk, hraw, if_pos hpresent]
  | succ level =>
      rw [walk, hraw, if_pos hpresent, if_pos (by rw [hlarge]; exact decide_eq_true (Nat.succ_pos _)),
        if_pos (hlevel.resolve_left (Nat.succ_ne_zero _))]

end Hardware

namespace PageTable

open PagingMode Hardware

variable {m : PagingMode} {address page size flags pat level table f : Nat} {s : Tables} {rest : List Nat}

section Steps

theorem addMapping_leaf (h : size = m.pageSize level) : addMapping m address page size flags pat level table s =
    (true, { s with mem := s.mem.write table (m.indexForAddress level address) (leafEntry m page flags pat level) }) := by
  cases level with
  | zero => exact if_pos h
  | succ level => exact if_pos h

theorem addMapping_zero (h : size ≠ m.pageSize 0) : addMapping m address page size flags pat 0 table s = (false, s) :=
  if_neg h

theorem addMapping_between (h : size ≠ m.pageSize (level + 1)) (hgt : size > m.pageSize level) :
    addMapping m address page size flags pat (level + 1) table s = (false, s) := by
  rw [addMapping, if_neg h, if_pos hgt]

theorem addMapping_present (h : size ≠ m.pageSize (level + 1)) (hle : size ≤ m.pageSize level)
    (hp : present (s.mem table (m.indexForAddress (level + 1) address)) = true) :
    addMapping m address page size flags pat (level + 1) table s =
      addMapping m address page size flags pat level
        (Entry.address m (level + 1) (s.mem table (m.indexForAddress (level + 1) address))) s := by
  rw [addMapping, if_neg h, if_neg (Nat.not_lt.mpr hle), if_pos (by rw [Entry.isPresent_eq, hp])]

theorem addMapping_fail (h : size ≠ m.pageSize (level + 1)) (hle : size ≤ m.pageSize level)
    (hp : present (s.mem table (m.indexForAddress (level + 1) address)) = false) (hf : s.pages.headD 0 = 0) :
    addMapping m address page size flags pat (level + 1) table s = (false, { s with pages := s.pages.tail }) := by
  rw [addMapping, if_neg h, if_neg (Nat.not_lt.mpr hle), if_neg (by rw [Entry.isPresent_eq, hp]; exact Bool.false_ne_true)]
  exact if_pos hf

theorem addMapping_allocate (h : size ≠ m.pageSize (level + 1)) (hle : size ≤ m.pageSize level)
    (hp : present (s.mem table (m.indexForAddress (level + 1) address)) = false) (hpages : s.pages = f :: rest)
    (hf : f ≠ 0) :
    addMapping m address page size flags pat (level + 1) table s =
      addMapping m address page size flags pat level f
        { mem := addSubTable m (level + 1) table address f (subtableFlags flags) s.mem, pages := rest } := by
  rw [addMapping, if_neg h, if_neg (Nat.not_lt.mpr hle), if_neg (by rw [Entry.isPresent_eq, hp]; exact Bool.false_ne_true),
    hpages]
  exact if_neg hf

end Steps

/-- What is assumed of the pages of the allocator. -/
structure Fresh (m : PagingMode) (s : Tables) : Prop where
  zeroed : ∀ f ∈ s.pages, f ≠ 0 → ∀ i, s.mem f i = 0
  aligned : ∀ f ∈ s.pages, f % 2 ^ 12 = 0
  physical : ∀ f ∈ s.pages, f < 2 ^ physicalBits m
  distinct : s.pages.Pairwise fun f g => f ≠ 0 → f ≠ g

/-- What `addMapping` does from a table on where it does not meet another table. -/
structure Added (m : PagingMode) (address page size flags pat level table : Nat) (s : Tables) (result : Bool × Tables) :
    Prop where
  others : ∀ p i, (p = table → i ≠ m.indexForAddress level address) → (p ∈ s.pages → p = 0) →
    result.2.mem p i = s.mem p i
  mapped : result.1 = true → ∃ target ≤ level, size = m.pageSize target ∧ ∀ a r, Agree m target level address a →
    walk m result.2.mem a level table r =
      some ⟨target, leafEntry m page flags pat target, r.inter (requested m flags)⟩
  unmapped : ∀ a r, m.indexForAddress level a = m.indexForAddress level address →
    (result.1 = true → ∀ target ≤ level, size = m.pageSize target → ¬ Agree m target level address a) →
    walk m result.2.mem a level table r = none

section Added

theorem legacyPDPT_of_supported (h : level = 0 ∨ largeLevel m level = true) : m.legacyPDPT level = false := by
  rcases h with rfl | h
  · cases m <;> rfl
  · cases m with
    | legacy | pae =>
        obtain rfl : level = 1 := of_decide_eq_true h
        rfl
    | _ => rfl

theorem level_of_supported (h : level = 0 ∨ largeLevel m level = true) (hm : m = .legacy) : level ≤ 1 := by
  subst hm
  rcases h with rfl | h
  · exact Nat.zero_le _
  · exact Nat.le_of_eq (of_decide_eq_true h)

/-- Nothing is changed, and the entry is not present. -/
theorem added_none (hp : present (s.mem table (m.indexForAddress level address)) = false) {pages : List Nat} :
    Added m address page size flags pat level table s (false, { s with pages }) where
  others _ _ _ _ := rfl
  mapped h := Bool.noConfusion h
  unmapped a r hindex _ := walk_absent (by rw [hindex, hp])

theorem added_leaf (hsize : size = m.pageSize level) (hlevel : level = 0 ∨ largeLevel m level = true)
    (hpage : page < 2 ^ physicalBits m) (halign : page % m.pageSize level = 0) :
    Added m address page size flags pat level table s
      (true, { s with mem := s.mem.write table (m.indexForAddress level address) (leafEntry m page flags pat level) }) where
  others _ _ h _ := Memory.write_of_ne h
  mapped _ := by
    have h12 : page % 2 ^ 12 = 0 :=
      Nat.mod_eq_zero_of_dvd (Nat.dvd_trans (two_pow_dvd_pageSize m level) (Nat.dvd_of_mod_eq_zero halign))
    refine ⟨level, Nat.le_refl _, hsize, fun a r hagree => ?_⟩
    have hraw := hagree level (Nat.le_refl _) (Nat.le_refl _)
    rw [walk_page (by rw [hraw]; exact Memory.write_self) (present_leafEntry hpage h12) (large_leafEntry hpage h12) hlevel,
      rights_leafEntry hpage h12 (legacyPDPT_of_supported hlevel)]
  unmapped a r hindex h := by
    refine absurd ?_ (h rfl level (Nat.le_refl _) hsize)
    intro j hj hle
    rw [Nat.le_antisymm hle hj, hindex]

theorem Fresh.tail {mem : Memory} (h : Fresh m s) (hpages : s.pages = f :: rest)
    (hmem : ∀ g ∈ rest, g ≠ 0 → ∀ i, mem g i = s.mem g i) : Fresh m { mem, pages := rest } where
  zeroed g hg h0 i := (hmem g hg h0 i).trans (h.zeroed g (hpages ▸ List.mem_cons_of_mem _ hg) h0 i)
  aligned g hg := h.aligned g (hpages ▸ List.mem_cons_of_mem _ hg)
  physical g hg := h.physical g (hpages ▸ List.mem_cons_of_mem _ hg)
  distinct := by
    have hd := h.distinct
    rw [hpages] at hd
    exact hd.of_cons

/-- After a page was taken for a sub-table the others are fresh still, and nothing is present in it. -/
theorem Fresh.allocate (address level flags : Nat) (h : Fresh m s) (hpages : s.pages = f :: rest) (hf : f ≠ 0)
    (htable : ∀ g ∈ s.pages, g ≠ 0 → g ≠ table) :
    Fresh m { mem := addSubTable m (level + 1) table address f (subtableFlags flags) s.mem, pages := rest } ∧
      (∀ g ∈ rest, g ≠ 0 → g ≠ f) ∧
      ∀ i, present (addSubTable m (level + 1) table address f (subtableFlags flags) s.mem f i) = false := by
  have hwrite : ∀ g ∈ s.pages, g ≠ 0 → ∀ i,
      addSubTable m (level + 1) table address f (subtableFlags flags) s.mem g i = s.mem g i :=
    fun g hg h0 i => Memory.write_of_ne fun heq => absurd heq (htable g hg h0)
  have hmem : f ∈ s.pages := hpages ▸ List.mem_cons_self
  refine ⟨h.tail hpages fun g hg => hwrite g (hpages ▸ List.mem_cons_of_mem _ hg), fun g hg _ => ?_, fun i => ?_⟩
  · have hd := h.distinct
    rw [hpages] at hd
    exact ((List.pairwise_cons.mp hd).1 g hg hf).symm
  · rw [hwrite f hmem hf, h.zeroed f hmem hf]
    rfl

/-- A sub-table that is new has the page in it, or nothing. -/
theorem added_subTable (hfresh : Fresh m s) (hpages : s.pages = f :: rest) (hf : f ≠ 0) (hft : f ≠ table)
    {result : Bool × Tables}
    (h : Added m address page size flags pat level f
      { mem := addSubTable m (level + 1) table address f (subtableFlags flags) s.mem, pages := rest } result)
    (htable : ∀ g ∈ s.pages, g ≠ 0 → g ≠ table) :
    Added m address page size flags pat (level + 1) table s result := by
  have hmem : f ∈ s.pages := hpages ▸ List.mem_cons_self
  have hdistinct : ∀ g ∈ rest, f ≠ g := by
    have hd := hfresh.distinct
    rw [hpages] at hd
    exact fun g hg => (List.pairwise_cons.mp hd).1 g hg hf
  -- the entry for the sub-table stays as it was written
  have hentry : result.2.mem table (m.indexForAddress (level + 1) address) =
      subTableEntry m (level + 1) f (subtableFlags flags) := by
    rw [h.others _ _ (fun heq => absurd heq.symm hft) fun hrest => ?_]
    · exact Memory.write_self
    · by_contra h0
      exact htable table (hpages ▸ List.mem_cons_of_mem _ hrest) h0 rfl
  have hwalk : ∀ a r, m.indexForAddress (level + 1) a = m.indexForAddress (level + 1) address →
      walk m result.2.mem a (level + 1) table r =
        walk m result.2.mem a level f (r.inter (subTableRights m (level + 1) flags)) := by
    intro a r hindex
    have htable : IsTable (subTableEntry m (level + 1) f (subtableFlags flags)) :=
      isTable_subTableEntry (hfresh.aligned f hmem)
    rw [walk, hindex, hentry, if_pos htable.1, not_large htable, if_neg Bool.false_ne_true,
      frame_subTableEntry (hfresh.physical f hmem) (hfresh.aligned f hmem),
      rights_subTableEntry (hfresh.physical f hmem) (hfresh.aligned f hmem)]
  constructor
  · intro p i hp hpage
    rw [h.others p i (fun heq => absurd (heq ▸ hpage (heq ▸ hmem)) hf)
      fun hrest => hpage (hpages ▸ List.mem_cons_of_mem _ hrest)]
    exact Memory.write_of_ne hp
  · intro hb
    obtain ⟨target, hle, hsize, hmapped⟩ := h.mapped hb
    refine ⟨target, Nat.le_succ_of_le hle, hsize, fun a r hagree => ?_⟩
    rw [hwalk a r (hagree (level + 1) (Nat.le_succ_of_le hle) (Nat.le_refl _)), hmapped a _ hagree.pred,
      Rights.inter_assoc, subTableRights_inter]
  · intro a r hindex hnot
    rw [hwalk a r hindex]
    by_cases hlower : m.indexForAddress level a = m.indexForAddress level address
    · exact h.unmapped a _ hlower fun hb target hle hsize hagree =>
        hnot hb target (Nat.le_succ_of_le hle) hsize (hagree.succ hindex)
    · refine walk_absent ?_
      rw [h.others _ _ (fun _ => hlower) fun hrest => absurd rfl (hdistinct f hrest)]
      change present (Memory.write _ _ _ _ _ _) = false
      rw [Memory.write_of_ne (fun heq => absurd heq hft), hfresh.zeroed f hmem hf]
      rfl

/-- Where the entry is not present, or is for a page of the size, nothing else comes into it. -/
theorem added (flags pat : Nat)
    (hsupported : ∀ target ≤ level, size = m.pageSize target → target = 0 ∨ largeLevel m target = true)
    (hpage : page < 2 ^ physicalBits m) (halign : page % size = 0) (hfresh : Fresh m s)
    (htable : ∀ g ∈ s.pages, g ≠ 0 → g ≠ table)
    (hentry : size = m.pageSize level ∨ present (s.mem table (m.indexForAddress level address)) = false) :
    Added m address page size flags pat level table s (addMapping m address page size flags pat level table s) := by
  by_cases hsize : size = m.pageSize level
  · rw [addMapping_leaf hsize]
    exact added_leaf hsize (hsupported level (Nat.le_refl _) hsize) hpage (hsize ▸ halign)
  · replace hentry := hentry.resolve_left hsize
    induction level generalizing table s with
    | zero =>
        rw [addMapping_zero hsize]
        exact added_none hentry
    | succ level ih =>
        by_cases hgt : size > m.pageSize level
        · rw [addMapping_between hsize hgt]
          exact added_none hentry
        · replace hgt := Nat.le_of_not_gt hgt
          by_cases hf : s.pages.headD 0 = 0
          · rw [addMapping_fail hsize hgt hentry hf]
            exact added_none hentry
          · obtain ⟨f, rest, hpages⟩ : ∃ f rest, s.pages = f :: rest := by
              cases h : s.pages with
              | nil => exact absurd (by rw [h]; rfl) hf
              | cons f rest => exact ⟨f, rest, rfl⟩
            have hf0 : f ≠ 0 := by
              rw [hpages] at hf
              exact hf
            obtain ⟨hfresh', hnext, habsent⟩ := hfresh.allocate address level flags hpages hf0 htable
            rw [addMapping_allocate hsize hgt hentry hpages hf0]
            refine added_subTable hfresh hpages hf0 (htable f (hpages ▸ List.mem_cons_self) hf0) ?_ htable
            by_cases hlower : size = m.pageSize level
            · rw [addMapping_leaf hlower]
              exact added_leaf hlower (hsupported level (Nat.le_succ _) hlower) hpage (hlower ▸ halign)
            · exact ih (fun target hle => hsupported target (Nat.le_succ_of_le hle)) hfresh' hnext hlower (habsent _)

/-- The pages suffice: there is one for every level between. -/
theorem addMapping_true (page flags pat : Nat) {target : Nat} (hle : target ≤ level) (hsize : size = m.pageSize target)
    (hfresh : Fresh m s)
    (hpages : ∀ f ∈ s.pages, f ≠ 0) (hlength : level ≤ s.pages.length + target)
    (htable : ∀ g ∈ s.pages, g ≠ 0 → g ≠ table)
    (hentry : size = m.pageSize level ∨ present (s.mem table (m.indexForAddress level address)) = false) :
    (addMapping m address page size flags pat level table s).1 = true := by
  induction level generalizing table s with
  | zero =>
      obtain rfl := Nat.le_zero.mp hle
      rw [addMapping_leaf hsize]
  | succ level ih =>
      by_cases htop : size = m.pageSize (level + 1)
      · rw [addMapping_leaf htop]
      · have hlt : target ≤ level := by
          by_contra hgt
          exact htop (by rw [hsize, show target = level + 1 by omega])
        cases hs : s.pages with
        | nil =>
            rw [hs] at hlength
            change level + 1 ≤ 0 + target at hlength
            omega
        | cons f rest =>
            have hf := hpages f (hs ▸ List.mem_cons_self)
            obtain ⟨hfresh', hnext, habsent⟩ := hfresh.allocate address level flags hs hf htable
            rw [addMapping_allocate htop (hsize ▸ pageSize_le hlt) (hentry.resolve_left htop) hs hf]
            refine ih hlt hfresh' (fun g hg => hpages g (hs ▸ List.mem_cons_of_mem _ hg)) ?_ hnext (Or.inr (habsent _))
            rw [hs, List.length_cons] at hlength
            change level ≤ rest.length + target
            omega

end Added

end PageTable

end XviOs.Mmu
