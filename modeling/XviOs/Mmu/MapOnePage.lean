import XviOs.Mmu.MapPage

namespace XviOs.Mmu

namespace Rights

/-- What is asked for is allowed. -/
def Grants (s q : Rights) : Prop :=
  (q.write = true → s.write = true) ∧ (q.user = true → s.user = true) ∧ (q.execute = true → s.execute = true)

variable {r s q : Rights}

theorem and_eq_right {a b : Bool} : (a && b) = b ↔ (b = true → a = true) := by
  cases a <;> cases b <;> decide

theorem inter_eq_right : s.inter q = q ↔ Grants s q := by
  cases q
  rw [inter, mk.injEq, and_eq_right, and_eq_right, and_eq_right]
  rfl

theorem grants_inter : Grants (r.inter s) q ↔ Grants r q ∧ Grants s q := by
  simp only [Grants, inter, Bool.and_eq_true]
  tauto

theorem all_grants (q : Rights) : Grants all q := ⟨fun _ => rfl, fun _ => rfl, fun _ => rfl⟩

end Rights

namespace PageTable

open PagingMode Hardware

variable {m : PagingMode} {S : Nat → Prop} {mem mem' : Memory}
  {root address page size flags pat a b level table target k u : Nat}
  {r r' q : Rights} {s : Tables} {pages : List Nat}

/-- A set of addresses for which the tables are a tree: every table has one place in it. Addresses that lead
through a self-map entry are left out of the set. -/
structure WellFormed (m : PagingMode) (S : Nat → Prop) (mem : Memory) (root : Nat) : Prop where
  separate : ∀ a b, S a → S b → ∀ k l table, Visits m mem a root k table → Visits m mem b root l table →
    k = l ∧ Agree m (k + 1) m.tableLevel a b
  address : ∀ a, S a → ∀ level table, Visits m mem a root level table →
    IsTable (mem table (m.indexForAddress level a)) →
      Entry.address m level (mem table (m.indexForAddress level a)) = frame m (mem table (m.indexForAddress level a))

/-- None of the pages is a table. -/
def Apart (m : PagingMode) (S : Nat → Prop) (mem : Memory) (root : Nat) (pages : List Nat) : Prop :=
  ∀ a, S a → ∀ level table, Visits m mem a root level table → table ∈ pages → table = 0

/-- The page is mapped at all its addresses, and nothing else has changed. -/
def MapsPage (m : PagingMode) (S : Nat → Prop) (mem mem' : Memory) (root address page size flags : Nat) : Prop :=
  (∀ a, address ≤ a → a < address + size → ∃ t, resolve m mem' a root = some t ∧
    m.pageSize t.level = size ∧ Hardware.page m t.level t.entry = page ∧ t.rights = requested m flags) ∧
  ∀ a, S a → ¬ (address ≤ a ∧ a < address + size) → resolve m mem' a root = resolve m mem a root

/-- What is expected of `mapOnePage`. -/
def MapsCorrectly (m : PagingMode) (S : Nat → Prop) (root address page size flags pat : Nat) (s : Tables) : Prop :=
  let result := mapOnePage m address page size flags pat root s
  if result.1 then MapsPage m S s.mem result.2.mem root address page size flags
  else ∀ a, S a → resolve m result.2.mem a root = resolve m s.mem a root

/-- The hardware has pages of the size, and above the page the entries on the way that are present are for tables
and allow what is requested. -/
def Mappable (m : PagingMode) (mem : Memory) (root address size flags : Nat) : Prop :=
  (∀ level ≤ m.tableLevel, size = m.pageSize level → level = 0 ∨ largeLevel m level = true) ∧
  ∀ level table, size ≤ m.pageSize level → Visits m mem address root (level + 1) table →
    present (mem table (m.indexForAddress (level + 1) address)) = true →
      (mem table (m.indexForAddress (level + 1) address)).testBit 7 = false ∧
        (rights m (level + 1) (mem table (m.indexForAddress (level + 1) address))).Grants (requested m flags)

section Descent

/-- Through the tables that are there nothing is changed. -/
theorem addMapping_walkTo (h : walkTo m s.mem address k level table r = some (u, r')) (hsize : size ≤ m.pageSize k)
    (haddress : ∀ j v q, k < j → walkTo m s.mem address j level table r = some (v, q) →
      IsTable (s.mem v (m.indexForAddress j address)) →
        Entry.address m j (s.mem v (m.indexForAddress j address)) = frame m (s.mem v (m.indexForAddress j address))) :
    addMapping m address page size flags pat level table s = addMapping m address page size flags pat k u s := by
  revert haddress
  refine walkTo_induction (motive := fun level table r =>
    (∀ j v q, k < j → walkTo m s.mem address j level table r = some (v, q) →
      IsTable (s.mem v (m.indexForAddress j address)) →
        Entry.address m j (s.mem v (m.indexForAddress j address)) = frame m (s.mem v (m.indexForAddress j address))) →
      addMapping m address page size flags pat level table s = _) h (fun _ => rfl) ?_
  intro level table r hk htable ih haddress
  have hle : size ≤ m.pageSize level := Nat.le_trans hsize (pageSize_le hk)
  have hne : size ≠ m.pageSize (level + 1) := Nat.ne_of_lt (Nat.lt_of_le_of_lt hle (pageSize_lt (Nat.lt_succ_self _)))
  rw [addMapping_present hne hle htable.1, haddress _ _ _ (by omega) walkTo_self htable]
  refine ih fun j v q hj hv => haddress j v q hj ?_
  rw [walkTo_step (le_of_walkTo hv), if_pos htable, hv]

/-- Where the descent to a page ends. -/
theorem exists_stop (mem : Memory) (address size level table : Nat) (r : Rights) :
    ∃ k u r', walkTo m mem address k level table r = some (u, r') ∧ (k = level ∨ size ≤ m.pageSize k) ∧
      ∀ j, k = j + 1 → size ≤ m.pageSize j → ¬ IsTable (mem u (m.indexForAddress k address)) := by
  induction level generalizing table r with
  | zero => exact ⟨0, table, r, walkTo_self, Or.inl rfl, fun j hj => absurd hj.symm (Nat.succ_ne_zero j)⟩
  | succ level ih =>
      by_cases hstop : size ≤ m.pageSize level ∧ IsTable (mem table (m.indexForAddress (level + 1) address))
      · obtain ⟨hle, htable⟩ := hstop
        obtain ⟨k, u, r', hwalk, hk, hend⟩ :=
          ih (frame m (mem table (m.indexForAddress (level + 1) address)))
            (r.inter (rights m (level + 1) (mem table (m.indexForAddress (level + 1) address))))
        refine ⟨k, u, r', ?_, Or.inr ?_, hend⟩
        · rw [walkTo_step (le_of_walkTo hwalk), if_pos htable, hwalk]
        · rcases hk with rfl | hk
          · exact hle
          · exact hk
      · refine ⟨level + 1, table, r, walkTo_self, Or.inl rfl, fun j hj hle htable => ?_⟩
        obtain rfl : level = j := by omega
        exact hstop ⟨hle, htable⟩

/-- The rights that are left were granted by every entry on the way. -/
theorem grants_of_walkTo (h : walkTo m mem address k level table r = some (u, r')) (hgrants : r'.Grants q) :
    r.Grants q ∧ ∀ j v s, k < j → walkTo m mem address j level table r = some (v, s) →
      (rights m j (mem v (m.indexForAddress j address))).Grants q := by
  refine walkTo_induction (motive := fun level table r => r.Grants q ∧ ∀ j v s, k < j →
    walkTo m mem address j level table r = some (v, s) →
      (rights m j (mem v (m.indexForAddress j address))).Grants q) h ?_ ?_
  · exact ⟨hgrants, fun j v s hj hv => absurd (le_of_walkTo hv) (by omega)⟩
  · rintro level table r hk htable ⟨hr, hrest⟩
    obtain ⟨htop, hentry⟩ := Rights.grants_inter.mp hr
    refine ⟨htop, fun j v s hj hv => ?_⟩
    rcases Nat.lt_or_eq_of_le (le_of_walkTo hv) with hlt | rfl
    · rw [walkTo_step (by omega), if_pos htable] at hv
      exact hrest j v s hj hv
    · rw [walkTo_self] at hv
      cases hv
      exact hentry

theorem walkTo_grants (h : walkTo m mem address k level table r = some (u, r')) (hr : r.Grants q)
    (hentries : ∀ j v s, k < j → walkTo m mem address j level table r = some (v, s) →
      IsTable (mem v (m.indexForAddress j address)) → (rights m j (mem v (m.indexForAddress j address))).Grants q) :
    r'.Grants q := by
  revert hr hentries
  refine walkTo_induction (motive := fun level table r => r.Grants q → (∀ j v s, k < j →
    walkTo m mem address j level table r = some (v, s) → IsTable (mem v (m.indexForAddress j address)) →
      (rights m j (mem v (m.indexForAddress j address))).Grants q) → r'.Grants q) h (fun hr _ => hr) ?_
  intro level table r hk htable ih hr hentries
  refine ih (Rights.grants_inter.mpr ⟨hr, hentries _ _ _ (by omega) walkTo_self htable⟩) fun j v s hj hv => ?_
  exact hentries j v s hj (by rw [walkTo_step (le_of_walkTo hv), if_pos htable, hv])

end Descent

section Frame

variable {result : Bool × Tables}

theorem agree_same (mem : Memory) (h : Agree m (k + 1) m.tableLevel a b)
    (hwalk : walkTo m mem a k m.tableLevel root r = some (u, r')) :
    walkTo m mem b k m.tableLevel root r = some (u, r') := by
  rw [← hwalk]
  exact walkTo_congr (le_of_walkTo hwalk) (fun j hj hle => h j hj hle) fun _ _ _ _ _ => rfl

/-- The entries on the way to the table that is changed stay. -/
theorem added_above (hwf : WellFormed m S s.mem root) (hapart : Apart m S s.mem root s.pages) (ha : S address)
    (hwalk : walkTo m s.mem address k m.tableLevel root Rights.all = some (u, r))
    (hadded : Added m address page size flags pat k u s result) (hagree : Agree m (k + 1) m.tableLevel address b) :
    walkTo m result.2.mem b k m.tableLevel root Rights.all = some (u, r) := by
  rw [← hwalk]
  refine walkTo_congr (le_of_walkTo hwalk) (fun j hj hle => hagree j hj hle) fun j v q hj hv => ?_
  refine hadded.others v _ ?_ (hapart address ha j v ⟨q, hv⟩)
  rintro rfl
  exact absurd (hwf.separate address address ha ha j k v ⟨q, hv⟩ ⟨r, hwalk⟩).1 (by omega)

/-- A walk that does not come to the entry that is changed stays as it is. -/
theorem added_elsewhere (hwf : WellFormed m S s.mem root) (hapart : Apart m S s.mem root s.pages) (ha : S address)
    (hwalk : walkTo m s.mem address k m.tableLevel root Rights.all = some (u, r))
    (hadded : Added m address page size flags pat k u s result) (hb : S b) (hnot : ¬ Agree m k m.tableLevel address b) :
    walk m result.2.mem b m.tableLevel root Rights.all = walk m s.mem b m.tableLevel root Rights.all := by
  refine walk_congr fun j v q hv => ?_
  refine hadded.others v _ ?_ (hapart b hb j v ⟨q, hv⟩)
  rintro rfl hindex
  obtain ⟨rfl, hagree⟩ := hwf.separate address b ha hb k j v ⟨r, hwalk⟩ ⟨q, hv⟩
  refine hnot fun i hi hle => ?_
  rcases Nat.lt_or_eq_of_le hi with hlt | rfl
  · exact hagree i hlt hle
  · exact hindex

/-- Apart from the page that is mapped nothing has changed. -/
theorem added_unchanged (hwf : WellFormed m S s.mem root) (hapart : Apart m S s.mem root s.pages) (ha : S address)
    (hwalk : walkTo m s.mem address k m.tableLevel root Rights.all = some (u, r))
    (hadded : Added m address page size flags pat k u s result)
    (hentry : size = m.pageSize k ∧ result.1 = true ∨ present (s.mem u (m.indexForAddress k address)) = false)
    (hb : S b) (hnot : result.1 = true → ∀ target ≤ k, size = m.pageSize target → ¬ Agree m target m.tableLevel address b) :
    resolve m result.2.mem b root = resolve m s.mem b root := by
  have hsame : walk m result.2.mem b m.tableLevel root Rights.all = walk m s.mem b m.tableLevel root Rights.all := by
    by_cases hagree : Agree m k m.tableLevel address b
    · have habove : Agree m (k + 1) m.tableLevel address b := fun j hj => hagree j (by omega)
      have hindex := hagree k (Nat.le_refl _) (le_of_walkTo hwalk)
      rw [walk_of_walkTo (added_above hwf hapart ha hwalk hadded habove), walk_of_walkTo (agree_same s.mem habove hwalk)]
      rcases hentry with ⟨hsize, htrue⟩ | habsent
      · exact absurd hagree (hnot htrue k (Nat.le_refl _) hsize)
      · rw [show walk m s.mem b k u r = none from walk_absent (by rw [hindex, habsent])]
        refine hadded.unmapped b r hindex fun htrue target hle hsize hlower => ?_
        refine hnot htrue target hle hsize fun j hj hjle => ?_
        by_cases hjk : j ≤ k
        · exact hlower j hj hjk
        · exact habove j (by omega) hjle
    · exact added_elsewhere hwf hapart ha hwalk hadded hb hagree
  rw [resolve, resolve, hsame]

end Frame

section Correct

theorem target_le (hsize : size = m.pageSize target) (htarget : target ≤ m.tableLevel)
    (hk : k = m.tableLevel ∨ size ≤ m.pageSize k) : target ≤ k := by
  rcases hk with rfl | hk
  · exact htarget
  · by_contra hlt
    exact absurd (hsize ▸ hk) (Nat.not_le.mpr (pageSize_lt (Nat.lt_of_not_le hlt)))

theorem in_page_iff (halign : address % m.pageSize target = 0) :
    address ≤ a ∧ a < address + m.pageSize target ↔ a / m.pageSize target = address / m.pageSize target := by
  have hpos := pageSize_pos m target
  obtain ⟨c, rfl⟩ := Nat.dvd_of_mod_eq_zero halign
  rw [Nat.mul_div_cancel_left _ hpos, Nat.div_eq_iff hpos, Nat.mul_comm]
  omega

theorem resolve_noncanonical (h : ¬ m.Canonical a) : resolve m mem a root = none := if_neg h

/-- The descent changes nothing, so that the call comes down to the last table on the way. -/
theorem mapOnePage_stop (hwf : WellFormed m S s.mem root) (ha : S address)
    (hwalk : walkTo m s.mem address k m.tableLevel root Rights.all = some (u, r))
    (hk : k = m.tableLevel ∨ size ≤ m.pageSize k) :
    mapOnePage m address page size flags pat root s = addMapping m address page size flags pat k u s := by
  rcases hk with rfl | hk
  · rw [walkTo_self] at hwalk
    cases hwalk
    rfl
  · exact addMapping_walkTo hwalk hk fun j v q _ hv htable => hwf.address address ha j v ⟨q, hv⟩ htable

theorem mapsPage_of_added {result : Bool × Tables} (hwf : WellFormed m S s.mem root) (hapart : Apart m S s.mem root s.pages)
    (ha : S address) (hcanonical : m.Canonical address) (halign : address % size = 0) (hpage : page < 2 ^ physicalBits m)
    (hpagealign : page % size = 0) (hmappable : Mappable m s.mem root address size flags)
    (hwalk : walkTo m s.mem address k m.tableLevel root Rights.all = some (u, r))
    (hadded : Added m address page size flags pat k u s result)
    (hentry : size = m.pageSize k ∧ result.1 = true ∨ present (s.mem u (m.indexForAddress k address)) = false)
    (htrue : result.1 = true) : MapsPage m S s.mem result.2.mem root address page size flags := by
  obtain ⟨target, hle, rfl, hmapped⟩ := hadded.mapped htrue
  have hk := le_of_walkTo hwalk
  have hsupported := hmappable.1 target (Nat.le_trans hle hk) rfl
  constructor
  · intro a hstart hend
    have hdiv := (in_page_iff halign).mp ⟨hstart, hend⟩
    have hagree : Agree m target m.tableLevel address a := agree_of_div_eq hdiv
    have habove := added_above hwf hapart ha hwalk hadded fun j hj hjle => hagree j (by omega) hjle
    -- every table that was there already grants what is requested
    have hgrants : r.Grants (requested m flags) := by
      refine walkTo_grants hwalk (Rights.all_grants _) fun j v q hj hv htable => ?_
      cases j with
      | zero => exact absurd hj (Nat.not_lt_zero k)
      | succ j => exact (hmappable.2 j v (pageSize_le (by omega)) ⟨q, hv⟩ htable.1).2
    refine ⟨⟨target, leafEntry m page flags pat target, r.inter (requested m flags)⟩, ?_, rfl, ?_, ?_⟩
    · rw [resolve, if_pos (canonical_of_div_eq hcanonical (Nat.le_trans hle hk) hdiv), walk_of_walkTo habove]
      exact hmapped a r fun j hj hjle => hagree j hj (Nat.le_trans hjle hk)
    · exact page_leafEntry hpage hpagealign (level_of_supported hsupported)
    · exact Rights.inter_eq_right.mpr hgrants
  · intro b hb hout
    by_cases hcb : m.Canonical b
    · refine added_unchanged hwf hapart ha hwalk hadded hentry hb fun _ target' hle' hsize hagree => ?_
      obtain rfl := pageSize_inj hsize
      exact hout ((in_page_iff halign).mpr (div_eq_of_agree hcanonical hcb (Nat.le_trans hle hk) hagree))
    · rw [resolve_noncanonical hcb, resolve_noncanonical hcb]

theorem mapsCorrectly_of_mappable (hwf : WellFormed m S s.mem root) (ha : S address) (hcanonical : m.Canonical address)
    (halign : address % size = 0) (hpage : page < 2 ^ physicalBits m) (hpagealign : page % size = 0)
    (hfresh : Fresh m s) (hapart : Apart m S s.mem root s.pages) (hmappable : Mappable m s.mem root address size flags) :
    MapsCorrectly m S root address page size flags pat s := by
  obtain ⟨k, u, r, hwalk, hk, hend⟩ := exists_stop (m := m) s.mem address size m.tableLevel root Rights.all
  have hle := le_of_walkTo hwalk
  rw [MapsCorrectly, mapOnePage_stop hwf ha hwalk hk]
  by_cases hstop : size = m.pageSize k ∨ present (s.mem u (m.indexForAddress k address)) = false
  · have hadded := added flags pat (fun target ht => hmappable.1 target (Nat.le_trans ht hle)) hpage hpagealign hfresh
      (fun g hg h0 heq => h0 (heq ▸ hapart address ha k u ⟨r, hwalk⟩ (heq ▸ hg))) hstop
    have hentry : size = m.pageSize k ∧ (addMapping m address page size flags pat k u s).1 = true ∨
        present (s.mem u (m.indexForAddress k address)) = false := by
      rcases hstop with hsize | habsent
      · exact Or.inl ⟨hsize, by rw [addMapping_leaf hsize]⟩
      · exact Or.inr habsent
    split
    · exact mapsPage_of_added hwf hapart ha hcanonical halign hpage hpagealign hmappable hwalk hadded hentry ‹_›
    · exact fun b hb => added_unchanged hwf hapart ha hwalk hadded hentry hb fun htrue => absurd htrue ‹_›
  · -- the size is none of a page, and nothing is done
    obtain ⟨hsize, hpresent⟩ := not_or.mp hstop
    have hfalse : addMapping m address page size flags pat k u s = (false, s) := by
      cases k with
      | zero => exact addMapping_zero hsize
      | succ j =>
          refine addMapping_between hsize (Nat.lt_of_not_le fun hj => hend j rfl hj ?_)
          have hp := Bool.eq_true_of_not_eq_false hpresent
          exact ⟨hp, (hmappable.2 j u hj ⟨r, hwalk⟩ hp).1⟩
    rw [hfalse, if_neg Bool.false_ne_true]
    exact fun _ _ => rfl

end Correct

/-- The tables are the same, whatever the rest of the memory is. -/
def SameTables (m : PagingMode) (S : Nat → Prop) (root : Nat) (mem mem' : Memory) : Prop :=
  ∀ a, S a → ∀ level table, Visits m mem a root level table → mem' table = mem table

/-- Pages for as many tables as a mapping may need. -/
structure Room (m : PagingMode) (S : Nat → Prop) (mem : Memory) (root : Nat) (pages : List Nat) : Prop where
  enough : m.tableLevel ≤ pages.length
  nonzero : ∀ f ∈ pages, f ≠ 0
  aligned : ∀ f ∈ pages, f % 2 ^ 12 = 0
  physical : ∀ f ∈ pages, f < 2 ^ physicalBits m
  distinct : pages.Pairwise fun f g => f ≠ 0 → f ≠ g
  apart : Apart m S mem root pages

section Necessary

theorem SameTables.walkTo_eq (h : SameTables m S root mem mem') (ha : S a) :
    walkTo m mem' a k m.tableLevel root Rights.all = walkTo m mem a k m.tableLevel root Rights.all := by
  by_cases hk : k ≤ m.tableLevel
  · exact walkTo_congr hk (fun _ _ _ => rfl) fun j u q _ hu => by rw [h a ha j u ⟨q, hu⟩]
  · cases hw : walkTo m mem a k m.tableLevel root Rights.all with
    | some p => exact absurd (le_of_walkTo hw) hk
    | none =>
        cases hw' : walkTo m mem' a k m.tableLevel root Rights.all with
        | some p => exact absurd (le_of_walkTo hw') hk
        | none => rfl

theorem SameTables.visits_iff (h : SameTables m S root mem mem') (ha : S a) :
    Visits m mem' a root k u ↔ Visits m mem a root k u := by
  rw [Visits, Visits, h.walkTo_eq ha]

theorem SameTables.wellFormed (h : SameTables m S root mem mem') (hwf : WellFormed m S mem root) :
    WellFormed m S mem' root where
  separate a b ha hb k l table hk hl :=
    hwf.separate a b ha hb k l table ((h.visits_iff ha).mp hk) ((h.visits_iff hb).mp hl)
  address a ha level table hvisits := by
    have hold := (h.visits_iff ha).mp hvisits
    rw [h a ha level table hold]
    exact hwf.address a ha level table hold

open Classical in
/-- The memory with nothing in it but the tables. -/
noncomputable def tablesOnly (m : PagingMode) (S : Nat → Prop) (root : Nat) (mem : Memory) : Memory := fun p =>
  if ∃ a level, S a ∧ Visits m mem a root level p then mem p else fun _ => 0

theorem sameTables_tablesOnly : SameTables m S root mem (tablesOnly m S root mem) :=
  fun a ha level _ h => if_pos ⟨a, level, ha, h⟩

theorem tablesOnly_zero (h : ∀ a, S a → ∀ level, ¬ Visits m mem a root level u) (i : Nat) :
    tablesOnly m S root mem u i = 0 := by
  rw [tablesOnly, if_neg]
  rintro ⟨a, level, ha, hvisits⟩
  exact h a ha level hvisits

theorem Room.fresh (h : Room m S mem root pages) : Fresh m { mem := tablesOnly m S root mem, pages } where
  zeroed f hf h0 i := tablesOnly_zero (fun a ha level hvisits => h0 (h.apart a ha level f hvisits hf)) i
  aligned := h.aligned
  physical := h.physical
  distinct := h.distinct

/-- The address is translated to a page of the size, which is one that the hardware has. -/
theorem exists_translation (htarget : size = m.pageSize target)
    (h : MapsPage m S mem mem' root address page size flags) :
    ∃ t, walk m mem' address m.tableLevel root Rights.all = some t ∧ t.level = target ∧ t.rights = requested m flags ∧
      (target = 0 ∨ largeLevel m target = true) := by
  have hpos : address < address + size := Nat.lt_add_of_pos_right (htarget ▸ pageSize_pos m target)
  obtain ⟨t, ht, hlevel, -, hrights⟩ := h.1 address (Nat.le_refl _) hpos
  rw [resolve] at ht
  split at ht
  · obtain rfl := pageSize_inj (hlevel.trans htarget)
    exact ⟨t, ht, rfl, hrights, level_of_walk ht⟩
  · cases ht

/-- The way to the page goes through tables that grant what is requested, and ends above an entry that is not
present or at the page itself. -/
theorem mappable_of_grants (hsize : size = m.pageSize target) (hsupported : target = 0 ∨ largeLevel m target = true)
    (hwalk : walkTo m mem address k m.tableLevel root Rights.all = some (u, r)) (hk : target ≤ k)
    (hend : ∀ j, k = j + 1 → size ≤ m.pageSize j → ¬ IsTable (mem u (m.indexForAddress k address)))
    (hstop : size = m.pageSize k ∨ present (mem u (m.indexForAddress k address)) = false)
    (hgrants : r.Grants (requested m flags)) : Mappable m mem root address size flags := by
  constructor
  · intro level _ hlevel
    obtain rfl := pageSize_inj (hsize.symm.trans hlevel)
    exact hsupported
  · rintro level table hle ⟨q, hvisits⟩ hpresent
    rcases Nat.lt_trichotomy k (level + 1) with hlt | rfl | hgt
    · have hrest := hwalk
      rw [walkTo_trans hvisits (Nat.le_of_lt hlt), walkTo_step (by omega)] at hrest
      split at hrest
      · exact ⟨(‹IsTable _›).2, (grants_of_walkTo hwalk hgrants).2 _ _ _ hlt hvisits⟩
      · cases hrest
    · -- the entry where the way ends is not present
      rw [hwalk] at hvisits
      cases hvisits
      rcases hstop with heq | habsent
      · exact absurd (heq ▸ hle) (Nat.not_le.mpr (pageSize_lt (Nat.lt_succ_self level)))
      · rw [habsent] at hpresent
        cases hpresent
    · -- there is no way on
      obtain ⟨j, rfl⟩ : ∃ j, k = j + 1 := ⟨k - 1, by omega⟩
      have hnone : walkTo m mem address (level + 1) m.tableLevel root Rights.all = none := by
        rw [walkTo_trans hwalk (Nat.le_of_lt hgt), walkTo_step (by omega),
          if_neg (hend j rfl (Nat.le_trans hle (pageSize_le (by omega))))]
      rw [hnone] at hvisits
      cases hvisits

/-- Where no large page is on the way a correct result needs the rights of every table. -/
theorem mappable_of_correct (hsize : size = m.pageSize target) (htarget : target ≤ m.tableLevel)
    (hwf : WellFormed m S s.mem root) (ha : S address) (hpage : page < 2 ^ physicalBits m) (hpagealign : page % size = 0)
    (hfresh : Fresh m s) (hroom : Room m S s.mem root s.pages)
    (hwalk : walkTo m s.mem address k m.tableLevel root Rights.all = some (u, r))
    (hk : k = m.tableLevel ∨ size ≤ m.pageSize k)
    (hend : ∀ j, k = j + 1 → size ≤ m.pageSize j → ¬ IsTable (s.mem u (m.indexForAddress k address)))
    (hstop : size = m.pageSize k ∨ present (s.mem u (m.indexForAddress k address)) = false)
    (hcorrect : MapsCorrectly m S root address page size flags pat s) : Mappable m s.mem root address size flags := by
  have hle := target_le hsize htarget hk
  have hapart := hroom.apart
  have htable : ∀ g ∈ s.pages, g ≠ 0 → g ≠ u :=
    fun g hg h0 heq => h0 (heq ▸ hapart address ha k u ⟨r, hwalk⟩ (heq ▸ hg))
  have hlength : k ≤ s.pages.length + target :=
    Nat.le_trans (le_of_walkTo hwalk) (Nat.le_trans hroom.enough (Nat.le_add_right _ _))
  have htrue := addMapping_true page flags pat hle hsize hfresh hroom.nonzero hlength htable hstop
  rw [MapsCorrectly, mapOnePage_stop hwf ha hwalk hk, if_pos htrue] at hcorrect
  obtain ⟨t, ht, hlevel, hrights, hsupported⟩ := exists_translation hsize hcorrect
  have hadded := added flags pat (fun target' _ hsize' => pageSize_inj (hsize.symm.trans hsize') ▸ hsupported)
    hpage hpagealign
    hfresh htable hstop
  obtain ⟨target', -, -, hmapped⟩ := hadded.mapped htrue
  have habove := added_above hwf hapart ha hwalk hadded fun j _ _ => rfl
  rw [walk_of_walkTo habove, hmapped address r fun j _ _ => rfl] at ht
  obtain rfl := Option.some.inj ht
  exact mappable_of_grants hsize hsupported hwalk hle hend hstop (Rights.inter_eq_right.mp hrights)

/-- A large page above the page is taken for a table, and the address stays translated to it. -/
theorem not_correct_of_large {j : Nat} (hsize : size = m.pageSize target) (hwf : WellFormed m S s.mem root) (ha : S address)
    (hpage : page < 2 ^ physicalBits m) (hpagealign : page % size = 0) (hfresh : Fresh m s)
    (hroom : Room m S s.mem root s.pages)
    (hwalk : walkTo m s.mem address (j + 1) m.tableLevel root Rights.all = some (u, r)) (hj : target ≤ j)
    (hpresent : present (s.mem u (m.indexForAddress (j + 1) address)) = true)
    (hlarge : ¬ IsTable (s.mem u (m.indexForAddress (j + 1) address)))
    (hpages : Entry.address m (j + 1) (s.mem u (m.indexForAddress (j + 1) address)) ∉ s.pages)
    (htables : ∀ a, S a → ∀ level,
      ¬ Visits m s.mem a root level (Entry.address m (j + 1) (s.mem u (m.indexForAddress (j + 1) address))))
    (hzero : ∀ i, s.mem (Entry.address m (j + 1) (s.mem u (m.indexForAddress (j + 1) address))) i = 0) :
    ¬ MapsCorrectly m S root address page size flags pat s := by
  intro hcorrect
  have hlt : size < m.pageSize (j + 1) := hsize ▸ pageSize_lt (by omega)
  have hle : size ≤ m.pageSize j := hsize ▸ pageSize_le hj
  have hk := le_of_walkTo hwalk
  rw [MapsCorrectly, mapOnePage_stop hwf ha hwalk (Or.inr (Nat.le_of_lt hlt)),
    addMapping_present (Nat.ne_of_lt hlt) hle hpresent] at hcorrect
  generalize Entry.address m (j + 1) (s.mem u (m.indexForAddress (j + 1) address)) = data at hpages htables hzero hcorrect
  have htable : ∀ g ∈ s.pages, g ≠ 0 → g ≠ data := fun g hg _ heq => hpages (heq ▸ hg)
  have habsent : present (s.mem data (m.indexForAddress j address)) = false := by
    rw [hzero]
    rfl
  have htrue := addMapping_true page flags pat hj hsize hfresh hroom.nonzero
    (Nat.le_trans (Nat.le_of_succ_le hk) (Nat.le_trans hroom.enough (Nat.le_add_right _ _))) htable (Or.inr habsent)
  rw [if_pos htrue] at hcorrect
  obtain ⟨t, ht, hlevel, -, hsupported⟩ := exists_translation hsize hcorrect
  have hadded := added flags pat (fun target' _ hsize' => pageSize_inj (hsize.symm.trans hsize') ▸ hsupported)
    hpage hpagealign
    hfresh htable (Or.inr habsent)
  rw [walk_congr fun k v q hv => hadded.others v _ (fun heq => absurd ⟨q, heq ▸ hv⟩ (htables address ha k))
    (hroom.apart address ha k v ⟨q, hv⟩), walk_of_walkTo hwalk, walk, if_pos hpresent,
    if_pos (large_of_not_isTable hpresent hlarge)] at ht
  split at ht
  · cases ht
    change j + 1 = target at hlevel
    omega
  · cases ht

theorem SameTables.mappable (h : SameTables m S root mem mem') (ha : S address)
    (hmappable : Mappable m mem root address size flags) : Mappable m mem' root address size flags := by
  refine ⟨hmappable.1, fun level table hle hvisits hpresent => ?_⟩
  have hold := (h.visits_iff ha).mp hvisits
  rw [h address ha _ table hold] at hpresent ⊢
  exact hmappable.2 level table hle hold hpresent

theorem SameTables.symm (h : SameTables m S root mem mem') : SameTables m S root mem' mem :=
  fun a ha level table hvisits => (h a ha level table ((h.visits_iff ha).mp hvisits)).symm

end Necessary

/-- A large page on the way lies neither over a table nor over a page of the allocator. -/
def DataApart (m : PagingMode) (S : Nat → Prop) (mem : Memory) (root address size : Nat) (pages : List Nat) : Prop :=
  ∀ level table, size ≤ m.pageSize level → Visits m mem address root (level + 1) table →
    present (mem table (m.indexForAddress (level + 1) address)) = true →
      (mem table (m.indexForAddress (level + 1) address)).testBit 7 = true →
        Entry.address m (level + 1) (mem table (m.indexForAddress (level + 1) address)) ∉ pages ∧
          ∀ a, S a → ∀ k,
            ¬ Visits m mem a root k (Entry.address m (level + 1) (mem table (m.indexForAddress (level + 1) address)))

theorem mappable_of_forall_correct (hwf : WellFormed m S mem root) (ha : S address) (hpage : page < 2 ^ physicalBits m)
    (hpagealign : page % size = 0) (htarget : target ≤ m.tableLevel) (hsize : size = m.pageSize target)
    (hroom : Room m S mem root pages) (hdata : DataApart m S mem root address size pages)
    (hcorrect : MapsCorrectly m S root address page size flags pat { mem := tablesOnly m S root mem, pages }) :
    Mappable m mem root address size flags := by
  have hsame : SameTables m S root mem (tablesOnly m S root mem) := sameTables_tablesOnly
  have hwf' := hsame.wellFormed hwf
  have hroom' : Room m S (tablesOnly m S root mem) root pages :=
    { hroom with apart := fun a ha level table hv => hroom.apart a ha level table ((hsame.visits_iff ha).mp hv) }
  refine hsame.symm.mappable ha ?_
  obtain ⟨k, u, r, hwalk, hk, hend⟩ :=
    exists_stop (m := m) (tablesOnly m S root mem) address size m.tableLevel root Rights.all
  by_cases hstop : size = m.pageSize k ∨ present (tablesOnly m S root mem u (m.indexForAddress k address)) = false
  · exact mappable_of_correct hsize htarget hwf' ha hpage hpagealign hroom.fresh hroom' hwalk hk hend hstop hcorrect
  · obtain ⟨hne, hpresent⟩ := not_or.mp hstop
    have hle := target_le hsize htarget hk
    obtain ⟨j, rfl⟩ : ∃ j, k = j + 1 := by
      refine ⟨k - 1, ?_⟩
      have hlt : target ≠ k := fun heq => hne (heq ▸ hsize)
      omega
    have hj : target ≤ j := by
      have hlt : target ≠ j + 1 := fun heq => hne (heq ▸ hsize)
      omega
    have hsizej : size ≤ m.pageSize j := hsize ▸ pageSize_le hj
    have hp := Bool.eq_true_of_not_eq_false hpresent
    have hlarge := hend j rfl hsizej
    have hvisits : Visits m mem address root (j + 1) u := (hsame.visits_iff ha).mp ⟨r, hwalk⟩
    have hentry : tablesOnly m S root mem u = mem u := hsame address ha _ u hvisits
    obtain ⟨hpages, htables⟩ := hdata j u hsizej hvisits (hentry ▸ hp)
      (by
        rw [hentry] at hlarge hp
        simpa only [IsTable, hp, true_and, Bool.not_eq_false] using hlarge)
    rw [← hentry] at hpages htables
    refine absurd hcorrect (not_correct_of_large hsize hwf' ha hpage hpagealign hroom.fresh hroom' hwalk hj hp hlarge hpages
      (fun a ha level hv => htables a ha level ((hsame.visits_iff ha).mp hv)) fun i => tablesOnly_zero htables i)

/-- Where the page is mappable, all is well for every behaviour of the allocator; and where there is room for the
tables, the mapping is right in all memories with these tables only if the page is mappable. -/
theorem mapOnePage_iff (hwf : WellFormed m S mem root) (ha : S address) (hcanonical : m.Canonical address)
    (halign : address % size = 0) (hpage : page < 2 ^ physicalBits m) (hpagealign : page % size = 0) :
    (Mappable m mem root address size flags → ∀ pages, Fresh m { mem, pages } → Apart m S mem root pages →
      MapsCorrectly m S root address page size flags pat { mem, pages }) ∧
    ∀ target ≤ m.tableLevel, size = m.pageSize target → ∀ pages, Room m S mem root pages →
      DataApart m S mem root address size pages →
        ((∀ mem', SameTables m S root mem mem' → Fresh m { mem := mem', pages } →
          MapsCorrectly m S root address page size flags pat { mem := mem', pages }) ↔
            Mappable m mem root address size flags) := by
  refine ⟨fun hmappable pages hfresh hapart =>
    mapsCorrectly_of_mappable hwf ha hcanonical halign hpage hpagealign hfresh hapart
    hmappable, fun target htarget hsize pages hroom hdata => ⟨fun h => ?_, fun hmappable mem' hsame hfresh => ?_⟩⟩
  · exact mappable_of_forall_correct hwf ha hpage hpagealign htarget hsize hroom hdata
      (h _ sameTables_tablesOnly hroom.fresh)
  · exact mapsCorrectly_of_mappable (hsame.wellFormed hwf) ha hcanonical halign hpage hpagealign hfresh
      (fun a ha level table hv => hroom.apart a ha level table ((hsame.visits_iff ha).mp hv)) (hsame.mappable ha hmappable)

section Flat

/-- A root table without other tables. -/
theorem visits_flat (h : ∀ i, ¬ IsTable (mem root i)) (hvisits : Visits m mem a root k table) :
    k = m.tableLevel ∧ table = root := by
  obtain ⟨r, hwalk⟩ := hvisits
  rcases Nat.lt_or_eq_of_le (le_of_walkTo hwalk) with hlt | rfl
  · obtain ⟨n, hn⟩ : ∃ n, m.tableLevel = n + 1 := ⟨m.tableLevel - 1, by omega⟩
    rw [hn, walkTo_step (by omega), if_neg (h _)] at hwalk
    cases hwalk
  · rw [walkTo_self] at hwalk
    cases hwalk
    exact ⟨rfl, rfl⟩

theorem wellFormed_flat (h : ∀ i, ¬ IsTable (mem root i)) : WellFormed m S mem root where
  separate a b _ _ k l table hk hl := by
    obtain ⟨rfl, -⟩ := visits_flat h hk
    obtain ⟨rfl, -⟩ := visits_flat h hl
    exact ⟨rfl, fun j hj hle => absurd hj (by omega)⟩
  address a _ level table hvisits htable := by
    obtain ⟨-, rfl⟩ := visits_flat h hvisits
    exact absurd htable (h _)

end Flat

/-- The first page in an empty root table, for which a page table is allocated. -/
theorem mapOnePage_empty : MapsCorrectly .legacy PagingMode.legacy.Canonical 0x1000 0x400000 0x800000 0x1000 3 0
    { mem := fun _ _ => 0, pages := [0x2000] } := by
  have hempty : ∀ i, ¬ IsTable ((fun _ _ => 0 : Memory) 0x1000 i) := fun _ => show ¬ IsTable 0 by decide
  refine (mapOnePage_iff (wellFormed_flat hempty) (by decide) (by decide) (by decide) (by decide) (by decide)).1 ?_
    [0x2000] ⟨fun _ _ _ _ => rfl, by decide, by decide, by decide⟩ fun a _ level table hvisits hmem => ?_
  · refine ⟨by decide, fun level table _ hvisits hpresent => ?_⟩
    exact absurd hpresent (show ¬ present 0 = true by decide)
  · obtain ⟨-, rfl⟩ := visits_flat hempty hvisits
    exact absurd hmem (by decide)

/-- A root table with a large page at its second entry. -/
def largePageTable : Memory := fun p i => if p = 0x1000 ∧ i = 1 then 0x00400083 else 0

/-- A small page in the middle of a large page: the call tells of success, and nothing is mapped. -/
theorem mapOnePage_in_large_page :
    WellFormed .legacy PagingMode.legacy.Canonical largePageTable 0x1000 ∧
      Fresh .legacy { mem := largePageTable, pages := [] } ∧
        ¬ MapsCorrectly .legacy PagingMode.legacy.Canonical 0x1000 0x400000 0x800000 0x1000 3 0
          { mem := largePageTable, pages := [] } := by
  refine ⟨wellFormed_flat fun i => ?_, ⟨nofun, nofun, nofun, List.Pairwise.nil⟩, fun h => ?_⟩
  · rw [largePageTable]
    split <;> decide
  · have htrue : (mapOnePage .legacy 0x400000 0x800000 0x1000 3 0 0x1000 { mem := largePageTable, pages := [] }).1 =
      true := by
      decide
    rw [MapsCorrectly, if_pos htrue] at h
    obtain ⟨t, ht, hlevel, -⟩ := h.1 0x400000 (by decide) (by decide)
    have hlarge : resolve .legacy (mapOnePage .legacy 0x400000 0x800000 0x1000 3 0 0x1000
        { mem := largePageTable, pages := [] }).2.mem 0x400000 0x1000 = some ⟨1, 0x00400083, ⟨true, false, true⟩⟩ := by
      decide
    rw [hlarge] at ht
    cases ht
    exact absurd hlevel (by decide)

end PageTable

end XviOs.Mmu
