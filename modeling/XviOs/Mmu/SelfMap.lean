import XviOs.Mmu.PageTable

namespace XviOs.Mmu

structure RecursiveMapper where
  base : Nat
  recurseIndex : Nat

namespace RecursiveMapper

variable (m : PagingMode) (mapper : RecursiveMapper)

def leafBits : Nat := 12

/-- A bit at every ninth place. -/
def K : Nat := 0x08040201

/-- The virtual address of a table. A shift by a negative count has no result. -/
def map (address level : Nat) : Option Nat :=
  let offset := address >>> ((level + 1) * m.fullDecodedBits)
  match m with
  | .legacy =>
    let offset := if level > 0 then offset ||| mapper.recurseIndex <<< leafBits else offset
    some ((mapper.base + offset) % 2 ^ m.ptrBits)
  | .pae =>
    let offset :=
      if level = 2 then mapper.recurseIndex <<< leafBits + (mapper.recurseIndex <<< 3 &&& 0x3FE0)
      else if level = 1 then (address >>> 18 &&& 0x3FFF) + (mapper.recurseIndex <<< leafBits &&& 0x007FF000)
      else offset
    some ((mapper.base + offset) % 2 ^ m.ptrBits)
  | _ =>
    -- `L` is the level of the root table, which is one less than the number of levels
    let L := m.tableLevel
    if L < level + 1 then none
    else
      let rshift := m.fullDecodedBits * (5 - (level + 1))
      let lshift := m.fullDecodedBits * (L - (level + 1))
      let k := K >>> rshift <<< lshift
      let offset := offset ||| (k * mapper.recurseIndex) <<< leafBits
      some ((mapper.base + offset) % 2 ^ m.ptrBits)

def rootTableAddress : Option Nat := mapper.map m mapper.base m.tableLevel

/-- The base is where the slot of the self-map entry starts, which is in the root table, and
for the PAE mode among the 2048 entries of the four page directories. -/
def WellPlaced : Prop :=
  match m with
  | .pae => mapper.recurseIndex + 3 < 2048 ∧ mapper.base = mapper.recurseIndex * 2 ^ 21
  | _ => m.Canonical mapper.base ∧ mapper.base % m.pageSize m.tableLevel = 0 ∧
      m.indexForAddress m.tableLevel mapper.base = mapper.recurseIndex

end RecursiveMapper

namespace Hardware

variable (m : PagingMode) (mem : Memory)

/-- The table, or the page, at the end of some indices. -/
def follow : List Nat → Nat → Option Nat
  | [], table => some table
  | i :: indices, table => if IsTable (mem table i) then follow indices (frame m (mem table i)) else none

/-- The indices of an address from one level down to another. -/
def indices (address : Nat) : Nat → Nat → List Nat
  | 0, level => [m.indexForAddress level address]
  | n + 1, level => m.indexForAddress (level + n + 1) address :: indices address n level

/-- The table of a level on the way to an address. -/
def tableAt (root address level : Nat) : Option Nat :=
  if level < m.tableLevel then
    follow m mem (indices m address (m.tableLevel - level - 1) (level + 1)) root
  else some root

end Hardware

namespace RecursiveMapper

open Hardware

variable (m : PagingMode) (mapper : RecursiveMapper) (mem : Memory) (root : Nat)

/-- The page directory `i` of the PAE mode. -/
def directory (i : Nat) : Nat := frame m (mem root i)

/-- The self-map: an entry of the root table for itself or, in the PAE mode, four entries in a
row for the four page directories. -/
def SelfMap : Prop :=
  match m with
  | .pae => ∀ i < 4, IsTable (mem root i) ∧
      IsTable (mem (directory m mem root ((mapper.recurseIndex + i) / 512)) ((mapper.recurseIndex + i) % 512)) ∧
      frame m (mem (directory m mem root ((mapper.recurseIndex + i) / 512)) ((mapper.recurseIndex + i) % 512)) =
        directory m mem root i
  | _ => IsTable (mem root mapper.recurseIndex) ∧ frame m (mem root mapper.recurseIndex) = root

/-- The page of the table of a level. The root table of the PAE mode is taken to be the self-map entries. -/
def mappedTable (address level : Nat) : Option Nat :=
  if m = .pae ∧ level = 2 then some (directory m mem root (mapper.recurseIndex / 512))
  else tableAt m mem root address level

/-- The address is canonical, and it leads to the table in all tables with the self-map. -/
def Reaches (address level : Nat) : Prop :=
  ∃ v, mapper.map m address level = some v ∧ m.Canonical v ∧
    ∀ mem root, mapper.SelfMap m mem root → ∀ table, mapper.mappedTable m mem root address level = some table →
      ∃ t, resolve m mem v root = some t ∧ page m t.level t.entry = table

end RecursiveMapper

end XviOs.Mmu

namespace XviOs.Mmu

namespace Hardware

variable {m : PagingMode} {mem : Memory} {v table t root n level i : Nat} {l l' : List Nat} {r : Rights}

/-- A walk through tables only, the last of which is taken for a page. -/
theorem walk_follow (h : follow m mem (indices m v level 0) table = some t) :
    ∃ tr, walk m mem v level table r = some tr ∧ page m tr.level tr.entry = t := by
  induction level generalizing table r with
  | zero =>
      rw [indices, follow] at h
      split at h
      · rename_i htable
        refine ⟨_, by rw [walk, if_pos htable.1], ?_⟩
        rw [page, if_pos rfl]
        exact Option.some.inj h
      · cases h
  | succ level ih =>
      rw [indices, follow] at h
      rw [Nat.zero_add] at h
      split at h
      · rename_i htable
        obtain ⟨tr, htr, hpage⟩ := ih (r := r.inter (rights m (level + 1) (mem table (m.indexForAddress (level + 1) v)))) h
        refine ⟨tr, ?_, hpage⟩
        rw [walk, if_pos htable.1, not_large htable, if_neg Bool.false_ne_true, htr]
      · cases h

/-- In tables without large pages a walk ends where the indices lead. -/
theorem follow_walk {tr : Translation} (hmem : ∀ p i, present (mem p i) = true → IsTable (mem p i))
    (h : walk m mem v level table r = some tr) :
    follow m mem (indices m v level 0) table = some (page m tr.level tr.entry) := by
  induction level generalizing table r with
  | zero =>
      rw [walk] at h
      split at h
      · rename_i hp
        obtain rfl := Option.some.inj h
        rw [indices, follow, if_pos (hmem _ _ hp), page, if_pos rfl]
        rfl
      · cases h
  | succ level ih =>
      rw [walk] at h
      split at h
      · rename_i hp
        rw [not_large (hmem _ _ hp), if_neg Bool.false_ne_true] at h
        rw [indices, follow, Nat.zero_add, if_pos (hmem _ _ hp)]
        exact ih h
      · cases h

end Hardware

namespace RecursiveMapper

open PagingMode Hardware

variable {m : PagingMode} {mapper : RecursiveMapper} {mem : Memory} {v table t root n level i address : Nat}

/-- The self-map entry leads back to the root table. -/
theorem follow_self {l : List Nat} (h : IsTable (mem root i) ∧ frame m (mem root i) = root) :
    follow m mem (i :: l) root = follow m mem l root := by
  rw [follow, if_pos h.1, h.2]

theorem follow_replicate {l : List Nat} (h : IsTable (mem root i) ∧ frame m (mem root i) = root) (n : Nat) :
    follow m mem (List.replicate n i ++ l) root = follow m mem l root := by
  induction n with
  | zero => rfl
  | succ n ih => rw [List.replicate_succ, List.cons_append, follow_self h, ih]

/-- The indices of the address that leads to a table by way of the self-map. -/
def tableIndices (m : PagingMode) (mapper : RecursiveMapper) (address level : Nat) : List Nat :=
  List.replicate (level + 1) mapper.recurseIndex ++
    if level < m.tableLevel then indices m address (m.tableLevel - level - 1) (level + 1) else []

theorem reaches_of_indices (hm : m ≠ .pae) (hmap : mapper.map m address level = some v) (hv : m.Canonical v)
    (hindices : indices m v m.tableLevel 0 = tableIndices m mapper address level) : mapper.Reaches m address level := by
  refine ⟨v, hmap, hv, fun mem root hself table htable => ?_⟩
  have hself' : IsTable (mem root mapper.recurseIndex) ∧ frame m (mem root mapper.recurseIndex) = root := by
    cases m with
    | pae => exact absurd rfl hm
    | _ => exact hself
  rw [mappedTable, if_neg fun h => hm h.1, tableAt] at htable
  have hfollow : follow m mem (indices m v m.tableLevel 0) root = some table := by
    rw [hindices, tableIndices, follow_replicate hself']
    split
    · rwa [if_pos ‹_›] at htable
    · rwa [if_neg ‹_›] at htable
  obtain ⟨tr, htr, hpage⟩ := walk_follow (r := Rights.all) hfollow
  exact ⟨tr, by rw [resolve, if_pos hv, htr], hpage⟩

theorem base_legacy (h : mapper.WellPlaced .legacy) :
    mapper.recurseIndex < 2 ^ 10 ∧ mapper.base = 2 ^ 22 * mapper.recurseIndex := by
  obtain ⟨hbase, hmod, hindex⟩ := h
  rw [canonical_legacy] at hbase
  change mapper.base % 2 ^ 22 = 0 at hmod
  change mapper.base / 2 ^ 22 % 2 ^ 10 = mapper.recurseIndex at hindex
  omega

theorem reaches_legacy (hplace : mapper.WellPlaced .legacy) (hlevel : level ≤ 1) (ha : address < 2 ^ 32) :
    mapper.Reaches .legacy address level := by
  obtain ⟨hindex, hbase⟩ := base_legacy hplace
  have hmap : mapper.map .legacy address level = some ((mapper.base + if level > 0 then
      address >>> ((level + 1) * 10) ||| mapper.recurseIndex <<< leafBits
      else address >>> ((level + 1) * 10)) % 2 ^ 32) := rfl
  refine reaches_of_indices (by decide) hmap ?_ ?_
  · rw [canonical_legacy]
    exact Nat.mod_lt _ (Nat.two_pow_pos 32)
  · rcases Nat.le_one_iff_eq_zero_or_eq_one.mp hlevel with rfl | rfl
    · change [PagingMode.legacy.indexForAddress 1 _, PagingMode.legacy.indexForAddress 0 _] =
        [mapper.recurseIndex, PagingMode.legacy.indexForAddress 1 address]
      rw [if_neg (by decide), Nat.shiftRight_eq_div_pow, index_legacy_one, index_legacy_zero, index_legacy_one, hbase]
      congr 1
      · omega
      · congr 1
        omega
    · change [PagingMode.legacy.indexForAddress 1 _, PagingMode.legacy.indexForAddress 0 _] =
        [mapper.recurseIndex, mapper.recurseIndex]
      have hor : address >>> 20 ||| mapper.recurseIndex <<< leafBits = 2 ^ 12 * mapper.recurseIndex + address / 2 ^ 20 := by
        rw [Nat.two_pow_add_eq_or_of_lt (by omega), Nat.or_comm, Nat.shiftLeft_eq, Nat.shiftRight_eq_div_pow, leafBits,
          Nat.mul_comm]
      have hrest : address / 2 ^ 20 < 2 ^ 12 := by omega
      rw [if_pos (by decide), hor, index_legacy_one, index_legacy_zero, hbase]
      generalize address / 2 ^ 20 = rest at hrest
      have hmod : (2 ^ 22 * mapper.recurseIndex + (2 ^ 12 * mapper.recurseIndex + rest)) % 2 ^ 32 =
          2 ^ 22 * mapper.recurseIndex + (2 ^ 12 * mapper.recurseIndex + rest) := Nat.mod_eq_of_lt (by omega)
      have h22 : (2 ^ 22 * mapper.recurseIndex + (2 ^ 12 * mapper.recurseIndex + rest)) / 2 ^ 22 = mapper.recurseIndex := by
        omega
      have h12 : (2 ^ 22 * mapper.recurseIndex + (2 ^ 12 * mapper.recurseIndex + rest)) / 2 ^ 12 =
          2 ^ 10 * mapper.recurseIndex + mapper.recurseIndex := by
        omega
      rw [hmod, h22, h12, Nat.mul_add_mod, Nat.mod_eq_of_lt hindex]

/-- The four page directories taken together. -/
theorem follow_pae {j : Nat} {l : List Nat} (hself : mapper.SelfMap .pae mem root) (hi : i < 4)
    (hj : j = mapper.recurseIndex + i) (h2048 : j < 2048) :
    follow .pae mem (j / 512 :: j % 512 :: l) root = follow .pae mem l (directory .pae mem root i) := by
  subst hj
  obtain ⟨-, htable, hframe⟩ := hself i hi
  obtain ⟨hdirectory, -, -⟩ := hself ((mapper.recurseIndex + i) / 512) (by omega)
  rw [follow, if_pos hdirectory]
  change follow .pae mem (_ :: l) (directory .pae mem root ((mapper.recurseIndex + i) / 512)) = _
  rw [follow, if_pos htable, hframe]

/-- The directory `i` is reached by the entry for it, in the directory that has this entry. -/
theorem follow_directory (hself : mapper.SelfMap .pae mem root) (hi : i < 4) (h2048 : mapper.recurseIndex + 3 < 2048)
    {n c : Nat} (hn : n = mapper.recurseIndex + (mapper.recurseIndex + i) / 512)
    (hc : c = (mapper.recurseIndex + i) % 512) :
    follow .pae mem [n / 512, n % 512, c] root = some (directory .pae mem root i) := by
  obtain ⟨-, htable, hframe⟩ := hself i hi
  rw [hc, follow_pae hself (show (mapper.recurseIndex + i) / 512 < 4 by omega) hn (by omega), follow, if_pos htable, hframe]
  rfl

theorem reaches_pae_of {n c : Nat} (hmap : mapper.map .pae address level = some v) (hv : v < 2 ^ 32)
    (hn : v / 2 ^ 21 = n) (hc : v / 2 ^ 12 % 2 ^ 9 = c)
    (h : ∀ mem root, mapper.SelfMap .pae mem root → ∀ table, mapper.mappedTable .pae mem root address level = some table →
      follow .pae mem [n / 512, n % 512, c] root = some table) :
    mapper.Reaches .pae address level := by
  have hcanonical := canonical_pae.mpr hv
  refine ⟨v, hmap, hcanonical, fun mem root hself table htable => ?_⟩
  have hfollow := h mem root hself table htable
  have h30 : n / 512 = v / 2 ^ 30 % 2 ^ 2 := by omega
  rw [h30, ← hn, ← hc] at hfollow
  obtain ⟨tr, htr, hpage⟩ := walk_follow (r := Rights.all)
    (show follow .pae mem (indices .pae v 2 0) root = some table from hfollow)
  exact ⟨tr, by rw [resolve, if_pos hcanonical]; exact htr, hpage⟩

theorem reaches_pae (hplace : mapper.WellPlaced .pae) (hlevel : level ≤ 2) (ha : address < 2 ^ 32) :
    mapper.Reaches .pae address level := by
  obtain ⟨hindex, hbase⟩ := hplace
  obtain rfl | rfl | rfl : level = 0 ∨ level = 1 ∨ level = 2 := by omega
  · have hmap : mapper.map .pae address 0 = some (mapper.base + address / 2 ^ 9) := by
      have hv : mapper.base + address / 2 ^ 9 < 2 ^ 32 := by omega
      change some ((mapper.base + address >>> 9) % 2 ^ 32) = _
      rw [Nat.shiftRight_eq_div_pow, Nat.mod_eq_of_lt hv]
    have h21 : (mapper.base + address / 2 ^ 9) / 2 ^ 21 = mapper.recurseIndex + address / 2 ^ 30 := by omega
    have h12 : (mapper.base + address / 2 ^ 9) / 2 ^ 12 % 2 ^ 9 = address / 2 ^ 21 % 2 ^ 9 := by omega
    refine reaches_pae_of hmap (by omega) h21 h12 fun mem root hself table htable => ?_
    -- the directory of the address comes first, and then the entry for its table
    rw [follow_pae hself (show address / 2 ^ 30 < 4 by omega) rfl (by omega)]
    change follow .pae mem [address / 2 ^ 30 % 2 ^ 2, address / 2 ^ 21 % 2 ^ 9] root = some table at htable
    rw [Nat.mod_eq_of_lt (by omega), follow, if_pos (hself _ (show address / 2 ^ 30 < 4 by omega)).1] at htable
    exact htable
  · have hor : address >>> 18 &&& 0x3FFF = address / 2 ^ 18 := by
      rw [show 0x3FFF = 2 ^ 14 - 1 from rfl, Nat.and_two_pow_sub_one_eq_mod, Nat.shiftRight_eq_div_pow]
      omega
    have hand : mapper.recurseIndex <<< leafBits &&& 0x007FF000 = mapper.recurseIndex * 2 ^ 12 := by
      rw [show 0x007FF000 = (2 ^ 11 - 1) <<< leafBits from rfl, ← Nat.shiftLeft_and_distrib,
        Nat.and_two_pow_sub_one_eq_mod, Nat.mod_eq_of_lt (by omega), Nat.shiftLeft_eq, leafBits]
    have hmap : mapper.map .pae address 1 = some (mapper.base + (address / 2 ^ 18 + mapper.recurseIndex * 2 ^ 12)) := by
      have hv : mapper.base + (address / 2 ^ 18 + mapper.recurseIndex * 2 ^ 12) < 2 ^ 32 := by omega
      change some ((mapper.base + ((address >>> 18 &&& 0x3FFF) +
        (mapper.recurseIndex <<< leafBits &&& 0x007FF000))) % 2 ^ 32) = _
      rw [hor, hand, Nat.mod_eq_of_lt hv]
    have hlt : address / 2 ^ 30 < 4 := by omega
    have h12 : (mapper.base + (address / 2 ^ 18 + mapper.recurseIndex * 2 ^ 12)) / 2 ^ 12 =
        2 ^ 9 * mapper.recurseIndex + (mapper.recurseIndex + address / 2 ^ 30) := by
      omega
    have h21 : (mapper.base + (address / 2 ^ 18 + mapper.recurseIndex * 2 ^ 12)) / 2 ^ 21 =
        mapper.recurseIndex + (mapper.recurseIndex + address / 2 ^ 30) / 512 := by
      omega
    refine reaches_pae_of hmap (by omega) h21 (by rw [h12, Nat.mul_add_mod]) fun mem root hself table htable => ?_
    change follow .pae mem [address / 2 ^ 30 % 2 ^ 2] root = some table at htable
    rw [Nat.mod_eq_of_lt (show address / 2 ^ 30 < 2 ^ 2 from hlt), follow, if_pos (hself _ hlt).1] at htable
    rw [← htable]
    exact follow_directory hself hlt hindex rfl rfl
  · have hand : (mapper.recurseIndex <<< 3 &&& 0x3FE0) / 2 ^ 12 = mapper.recurseIndex / 512 := by
      have hdiv : mapper.recurseIndex <<< 3 / 2 ^ 12 = mapper.recurseIndex / 2 ^ 9 := by
        rw [Nat.shiftLeft_eq]
        omega
      rw [Nat.and_div_two_pow, hdiv, show 0x3FE0 / 2 ^ 12 = 2 ^ 2 - 1 from rfl, Nat.and_two_pow_sub_one_eq_mod]
      omega
    have hle : mapper.recurseIndex <<< 3 &&& 0x3FE0 ≤ 0x3FE0 := Nat.and_le_right
    generalize hrest : mapper.recurseIndex <<< 3 &&& 0x3FE0 = rest at hand hle
    have hmap : mapper.map .pae address 2 = some (mapper.base + (mapper.recurseIndex * 2 ^ 12 + rest)) := by
      have hv : mapper.base + (mapper.recurseIndex * 2 ^ 12 + rest) < 2 ^ 32 := by omega
      change some ((mapper.base + (mapper.recurseIndex <<< 12 + (mapper.recurseIndex <<< 3 &&& 0x3FE0))) % 2 ^ 32) = _
      rw [hrest, Nat.shiftLeft_eq, Nat.mod_eq_of_lt hv]
    have hlt : mapper.recurseIndex / 512 < 4 := by omega
    have h12 : (mapper.base + (mapper.recurseIndex * 2 ^ 12 + rest)) / 2 ^ 12 =
        2 ^ 9 * mapper.recurseIndex + (mapper.recurseIndex + mapper.recurseIndex / 512) := by
      omega
    have h21 : (mapper.base + (mapper.recurseIndex * 2 ^ 12 + rest)) / 2 ^ 21 =
        mapper.recurseIndex + (mapper.recurseIndex + mapper.recurseIndex / 512) / 512 := by
      omega
    refine reaches_pae_of hmap (by omega) h21 (by rw [h12, Nat.mul_add_mod]) fun mem root hself table htable => ?_
    obtain rfl : directory .pae mem root (mapper.recurseIndex / 512) = table := Option.some.inj htable
    exact follow_directory hself hlt hindex rfl rfl

end RecursiveMapper

end XviOs.Mmu
