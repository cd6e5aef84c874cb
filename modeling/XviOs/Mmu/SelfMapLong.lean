import XviOs.Mmu.SelfMap

namespace XviOs.Mmu.RecursiveMapper

open PagingMode Hardware

variable {m : PagingMode} {mapper : RecursiveMapper} {mem : Memory} {v table t root n level i address : Nat} {l : List Nat}

section Digits

variable {a b o s n : Nat}

/-- The index at one level of what is added to a multiple of its page size. -/
theorem digit_add (hn : n ≤ 55) : (2 ^ n * b + o) % 2 ^ 64 / 2 ^ n % 2 ^ 9 = (b + o / 2 ^ n) % 2 ^ 9 := by
  have hsplit : 2 ^ 64 = 2 ^ n * 2 ^ (64 - n) := by
    rw [← Nat.pow_add]
    congr 1
    omega
  have hdvd : 2 ^ 9 ∣ 2 ^ (64 - n) := Nat.pow_dvd_pow 2 (by omega)
  rw [hsplit, Nat.mod_mul_right_div_self, Nat.mod_mod_of_dvd _ hdvd, Nat.mul_add_div (Nat.two_pow_pos n)]

/-- The same below the level of the base. -/
theorem digit_below {e : Nat} (hn : n ≤ 55) (he : n + 9 ≤ e) :
    (2 ^ e * b + o) % 2 ^ 64 / 2 ^ n % 2 ^ 9 = o / 2 ^ n % 2 ^ 9 := by
  have hsplit : 2 ^ e * b = 2 ^ n * (2 ^ 9 * (2 ^ (e - n - 9) * b)) := by
    rw [← Nat.mul_assoc, ← Nat.mul_assoc, ← Nat.pow_add, ← Nat.pow_add]
    congr 2
    omega
  rw [hsplit, digit_add hn, Nat.mul_add_mod]

end Digits

theorem base_longMode (h : mapper.WellPlaced .longMode) :
    ∃ b, mapper.base = 2 ^ 39 * b ∧ mapper.recurseIndex = b % 2 ^ 9 ∧ (b < 2 ^ 8 ∨ 2 ^ 25 - 2 ^ 8 ≤ b ∧ b < 2 ^ 25) := by
  obtain ⟨hbase, hmod, hindex⟩ := h
  rw [canonical_longMode] at hbase
  change mapper.base % 2 ^ 39 = 0 at hmod
  change mapper.base / 2 ^ 39 % 2 ^ 9 = mapper.recurseIndex at hindex
  exact ⟨mapper.base / 2 ^ 39, by omega, hindex.symm, by omega⟩

theorem base_longMode5Level (h : mapper.WellPlaced .longMode5Level) :
    ∃ b, mapper.base = 2 ^ 48 * b ∧ mapper.recurseIndex = b % 2 ^ 9 ∧ (b < 2 ^ 8 ∨ 2 ^ 16 - 2 ^ 8 ≤ b ∧ b < 2 ^ 16) := by
  obtain ⟨hbase, hmod, hindex⟩ := h
  rw [canonical_longMode5Level] at hbase
  change mapper.base % 2 ^ 48 = 0 at hmod
  change mapper.base / 2 ^ 48 % 2 ^ 9 = mapper.recurseIndex at hindex
  exact ⟨mapper.base / 2 ^ 48, by omega, hindex.symm, by omega⟩

/-- What the map adds to its base, below the level of the root table. -/
def offset (k idx level address : Nat) : Nat := address >>> ((level + 1) * 9) ||| (k * idx) <<< leafBits

theorem map_longMode {k : Nat} (hlevel : level < 3) (hk : K >>> (9 * (5 - (level + 1))) <<< (9 * (3 - (level + 1))) = k) :
    mapper.map .longMode address level = some ((mapper.base + offset k mapper.recurseIndex level address) % 2 ^ 64) := by
  subst hk
  exact if_neg (show ¬ 3 < level + 1 by omega)

theorem map_longMode5Level {k : Nat} (hlevel : level < 4)
    (hk : K >>> (9 * (5 - (level + 1))) <<< (9 * (4 - (level + 1))) = k) :
    mapper.map .longMode5Level address level =
      some ((mapper.base + offset k mapper.recurseIndex level address) % 2 ^ 64) := by
  subst hk
  exact if_neg (show ¬ 4 < level + 1 by omega)

theorem map_root_longMode : mapper.map .longMode address 3 = none := rfl

theorem map_root_longMode5Level : mapper.map .longMode5Level address 4 = none := rfl

theorem offset_div (k idx level address n : Nat) :
    offset k idx level address / 2 ^ n = address / 2 ^ ((level + 1) * 9 + n) ||| k * idx * 2 ^ 12 / 2 ^ n := by
  rw [offset, Nat.or_div_two_pow, Nat.shiftRight_eq_div_pow, Nat.div_div_eq_div_mul, ← Nat.pow_add, Nat.shiftLeft_eq]
  rfl

theorem offset_zero (k address level : Nat) : offset k 0 level address = address / 2 ^ ((level + 1) * 9) := by
  rw [offset, Nat.mul_zero, Nat.zero_shiftLeft, Nat.or_zero, Nat.shiftRight_eq_div_pow]

theorem offset_pageTable (idx address : Nat) : offset 0 idx 0 address = address / 2 ^ 9 := by
  rw [offset, Nat.zero_mul, Nat.zero_shiftLeft, Nat.or_zero, Nat.shiftRight_eq_div_pow]

section Path

variable {idx : Nat} {V : List Nat}

/-- Tables, one after another from the page at 4096 on, in which the path goes from one to the next. The
first has the self-map entry too. -/
def pathTables (idx : Nat) (path : List Nat) : Memory := fun p i =>
  if p = 1 * 4096 ∧ i = idx then 1 * 4096 + 3
  else if 1 ≤ p / 4096 ∧ path[p / 4096 - 1]? = some i then (p / 4096 + 1) * 4096 + 3
  else 0

theorem isTable_path (n : Nat) : IsTable (n * 4096 + 3) := by
  rw [IsTable, present, Nat.testBit_eq_decide_div_mod_eq, Nat.testBit_eq_decide_div_mod_eq, decide_eq_true_eq,
    decide_eq_false_iff_not]
  omega

theorem frame_path (hm : m ≠ .legacy) {n : Nat} (hn : n < 2 ^ 40) : frame m (n * 4096 + 3) = n * 4096 := by
  have hbits : physicalBits m = 52 := by
    cases m with
    | legacy => exact absurd rfl hm
    | _ => rfl
  rw [frame, hbits]
  change (n * 4096 + 3) / 2 ^ 12 % 2 ^ 40 * 2 ^ 12 = n * 4096
  omega

theorem pathTables_self (path : List Nat) : pathTables idx path (1 * 4096) idx = 1 * 4096 + 3 := if_pos ⟨rfl, rfl⟩

theorem pathTables_next {path : List Nat} {n i : Nat} (hi : n = 0 → i ≠ idx) (h : path[n]? = some i) :
    pathTables idx path ((n + 1) * 4096) i = (n + 1 + 1) * 4096 + 3 := by
  rw [pathTables, if_neg, Nat.mul_div_cancel _ (by decide), if_pos ⟨by omega, h⟩]
  rintro ⟨hp, rfl⟩
  exact hi (by omega) rfl

theorem pathTables_isTable {path : List Nat} {n i : Nat} (h : IsTable (pathTables idx path ((n + 1) * 4096) i)) :
    n = 0 ∧ i = idx ∨ path[n]? = some i := by
  by_contra hnot
  obtain ⟨hself, hnext⟩ := not_or.mp hnot
  rw [pathTables, if_neg, if_neg] at h
  · exact absurd h (by decide)
  · rw [Nat.mul_div_cancel _ (by decide)]
    exact fun hn => hnext hn.2
  · rintro ⟨hp, rfl⟩
    exact hself ⟨by omega, rfl⟩

theorem pathTables_present {path : List Nat} {p i : Nat} (h : present (pathTables idx path p i) = true) :
    IsTable (pathTables idx path p i) := by
  rw [pathTables] at h ⊢
  split_ifs at h ⊢
  · exact isTable_path _
  · exact isTable_path _
  · exact absurd h (by decide)

/-- Along the path from one of its tables on. -/
theorem follow_path (hm : m ≠ .legacy) {path rest : List Nat} {n : Nat} (hlength : path.length < 2 ^ 39)
    (hhead : path.head? ≠ some idx) (hdrop : path.drop n = rest) (hn : n ≤ path.length) :
    follow m (pathTables idx path) rest ((n + 1) * 4096) = some ((path.length + 1) * 4096) := by
  induction rest generalizing n with
  | nil =>
      have hle := List.drop_eq_nil_iff.mp hdrop
      rw [follow, Nat.le_antisymm hn hle]
  | cons i rest ih =>
      have hlt : n < path.length := by
        by_contra hge
        rw [List.drop_eq_nil_of_le (Nat.le_of_not_lt hge)] at hdrop
        cases hdrop
      rw [List.drop_eq_getElem_cons hlt, List.cons.injEq] at hdrop
      obtain ⟨rfl, hrest⟩ := hdrop
      have hnext : pathTables idx path ((n + 1) * 4096) path[n] = (n + 1 + 1) * 4096 + 3 := pathTables_next
        (by
          rintro rfl hidx
          rw [List.head?_eq_getElem?, List.getElem?_eq_getElem hlt, hidx] at hhead
          exact hhead rfl)
        (List.getElem?_eq_getElem hlt)
      rw [follow, hnext, if_pos (isTable_path _), frame_path hm (by omega)]
      exact ih hrest hlt

/-- After the first table only the path leads to its end. -/
theorem path_of_follow (hm : m ≠ .legacy) {path : List Nat} {n : Nat} (hlength : path.length < 2 ^ 39)
    (hn : 0 < n) (hle : n ≤ path.length)
    (h : follow m (pathTables idx path) V ((n + 1) * 4096) = some ((path.length + 1) * 4096)) : V = path.drop n := by
  induction V generalizing n with
  | nil =>
      have heq := Option.some.inj h
      rw [List.drop_eq_nil_of_le (by omega)]
  | cons i V ih =>
      rw [follow] at h
      split at h
      · rename_i htable
        rcases pathTables_isTable htable with ⟨h0, -⟩ | hnext
        · omega
        · obtain ⟨hlt, rfl⟩ := List.getElem?_eq_some_iff.mp hnext
          rw [pathTables_next (fun h0 => absurd h0 (by omega)) hnext, frame_path hm (by omega)] at h
          rw [List.drop_eq_getElem_cons hlt, ih (by omega) hlt h]
      · cases h

/-- From the first table the self-map entry may come any number of times before the path. -/
theorem replicate_of_follow (hm : m ≠ .legacy) {path : List Nat} (hlength : path.length < 2 ^ 39)
    (h : follow m (pathTables idx path) V (1 * 4096) = some ((path.length + 1) * 4096)) :
    ∃ n, V = List.replicate n idx ++ path := by
  induction V with
  | nil =>
      have heq := Option.some.inj h
      exact ⟨0, (List.length_eq_zero_iff (l := path).mp (by omega)).symm⟩
  | cons i V ih =>
      rw [follow] at h
      split at h
      · rename_i htable
        by_cases hi : i = idx
        · subst hi
          rw [pathTables_self, frame_path hm (by decide)] at h
          obtain ⟨n, rfl⟩ := ih h
          exact ⟨n + 1, rfl⟩
        · rcases pathTables_isTable (n := 0) htable with ⟨-, hself⟩ | hnext
          · exact absurd hself hi
          · obtain ⟨hlt, rfl⟩ := List.getElem?_eq_some_iff.mp hnext
            have hraw := pathTables_next (n := 0) (fun _ => hi) hnext
            rw [Nat.zero_add] at hraw
            rw [hraw, frame_path hm (by decide)] at h
            have hrest := path_of_follow hm (by omega) Nat.one_pos hlt h
            refine ⟨0, ?_⟩
            rw [hrest, List.replicate_zero, List.nil_append, ← List.drop_eq_getElem_cons hlt, List.drop_zero]
      · cases h

theorem length_indices (a n level : Nat) : (indices m a n level).length = n + 1 := by
  induction n with
  | zero => rfl
  | succ n ih => rw [indices, List.length_cons, ih]

/-- What remains of a path after the self-map entries at its start. -/
theorem exists_path (idx : Nat) (V : List Nat) :
    ∃ n path, V = List.replicate n idx ++ path ∧ path.head? ≠ some idx := by
  induction V with
  | nil => exact ⟨0, [], rfl, (Option.some_ne_none idx).symm⟩
  | cons i V ih =>
      by_cases hi : i = idx
      · obtain ⟨n, path, rfl, hhead⟩ := ih
        exact ⟨n + 1, path, by rw [hi, List.replicate_succ, List.cons_append], hhead⟩
      · exact ⟨0, i :: V, rfl, fun h => hi (Option.some.inj h)⟩

/-- An address that leads to the table in all tables has the self-map entry first, once for each level that
is skipped, and then the indices of the address that the table is for. -/
theorem indices_of_reaches (hlegacy : m ≠ .legacy) (hpae : m ≠ .pae) (hlevel : level < m.tableLevel)
    (h : mapper.Reaches m address level) (hmap : mapper.map m address level = some v) :
    m.Canonical v ∧ indices m v m.tableLevel 0 = tableIndices m mapper address level := by
  obtain ⟨v', hv', hcanonical, h⟩ := h
  obtain rfl : v = v' := Option.some.inj (hmap.symm.trans hv')
  refine ⟨hcanonical, ?_⟩
  have hlength : m.tableLevel ≤ 4 := by
    cases m <;> decide
  have hA := length_indices (m := m) address (m.tableLevel - level - 1) (level + 1)
  have hV := length_indices (m := m) v m.tableLevel 0
  obtain ⟨k, path, hpath, hhead⟩ :=
    exists_path mapper.recurseIndex (indices m address (m.tableLevel - level - 1) (level + 1))
  rw [hpath, List.length_append, List.length_replicate] at hA
  have hself : IsTable (pathTables mapper.recurseIndex path (1 * 4096) mapper.recurseIndex) ∧
      frame m (pathTables mapper.recurseIndex path (1 * 4096) mapper.recurseIndex) = 1 * 4096 := by
    rw [pathTables_self]
    exact ⟨isTable_path 1, frame_path hlegacy (by decide)⟩
  have htable : mapper.mappedTable m (pathTables mapper.recurseIndex path) (1 * 4096) address level =
      some ((path.length + 1) * 4096) := by
    rw [mappedTable, if_neg fun h => hpae h.1, tableAt, if_pos hlevel, hpath, follow_replicate hself]
    exact follow_path (n := 0) hlegacy (by omega) hhead rfl (Nat.zero_le _)
  obtain ⟨t, ht, hpage⟩ := h (pathTables mapper.recurseIndex path) (1 * 4096)
    (by cases m with
      | pae => exact absurd rfl hpae
      | _ => exact hself) _ htable
  rw [resolve, if_pos hcanonical] at ht
  have hfollow := follow_walk (fun _ _ => pathTables_present) ht
  rw [hpage] at hfollow
  obtain ⟨n, hn⟩ := replicate_of_follow hlegacy (by omega) hfollow
  rw [hn, List.length_append, List.length_replicate] at hV
  obtain rfl : n = level + 1 + k := by omega
  rw [hn, tableIndices, if_pos hlevel, hpath, List.replicate_add, List.append_assoc]

theorem reaches_iff_indices (hlegacy : m ≠ .legacy) (hpae : m ≠ .pae) (hlevel : level < m.tableLevel)
    (hmap : mapper.map m address level = some v) :
    mapper.Reaches m address level ↔
      m.Canonical v ∧ indices m v m.tableLevel 0 = tableIndices m mapper address level :=
  ⟨fun h => indices_of_reaches hlegacy hpae hlevel h hmap, fun h => reaches_of_indices hpae hmap h.1 h.2⟩

end Path

section LongMode

theorem indices_longMode (b o : Nat) : indices .longMode ((2 ^ 39 * b + o) % 2 ^ 64) 3 0 =
    [(b + o / 2 ^ 39) % 2 ^ 9, o / 2 ^ 30 % 2 ^ 9, o / 2 ^ 21 % 2 ^ 9, o / 2 ^ 12 % 2 ^ 9] := by
  change [_, _, _, _] = _
  simp only [index_longMode]
  rw [digit_add (by decide), digit_below (by decide) (by decide), digit_below (by decide) (by decide),
    digit_below (by decide) (by decide)]

theorem canonical_longMode_add {b o : Nat} (hb : b < 2 ^ 8 ∨ 2 ^ 25 - 2 ^ 8 ≤ b ∧ b < 2 ^ 25) (ho : o < 2 ^ 39) :
    PagingMode.longMode.Canonical ((2 ^ 39 * b + o) % 2 ^ 64) := by
  rw [canonical_longMode, Nat.mod_eq_of_lt (by omega)]
  omega

theorem reaches_longMode_zero_iff (hplace : mapper.WellPlaced .longMode) (ha : PagingMode.longMode.Canonical address) :
    mapper.Reaches .longMode address 0 ↔ address < 2 ^ 47 := by
  obtain ⟨b, hbase, hindex, hb⟩ := base_longMode hplace
  rw [canonical_longMode] at ha
  rw [reaches_iff_indices (by decide) (by decide) (by decide) (map_longMode (k := 0) (by decide) (by decide)), hbase,
    offset_pageTable]
  have htable : tableIndices .longMode mapper address 0 =
      [mapper.recurseIndex, address / 2 ^ 39 % 2 ^ 9, address / 2 ^ 30 % 2 ^ 9, address / 2 ^ 21 % 2 ^ 9] := rfl
  change _ ∧ indices .longMode _ 3 0 = _ ↔ _
  rw [indices_longMode, htable]
  simp only [List.cons.injEq, and_true]
  constructor
  · rintro ⟨-, h, -, -, -⟩
    omega
  · intro hlt
    refine ⟨canonical_longMode_add hb (by omega), ?_, ?_, ?_, ?_⟩ <;> omega

theorem reaches_longMode_one_iff (hplace : mapper.WellPlaced .longMode) (ha : PagingMode.longMode.Canonical address) :
    mapper.Reaches .longMode address 1 ↔ address < 2 ^ 47 ∧ mapper.recurseIndex = 0 := by
  obtain ⟨b, hbase, hindex, hb⟩ := base_longMode hplace
  rw [canonical_longMode] at ha
  rw [reaches_iff_indices (by decide) (by decide) (by decide) (map_longMode (k := 512) (by decide) (by decide)), hbase]
  have htable : tableIndices .longMode mapper address 1 =
      [mapper.recurseIndex, mapper.recurseIndex, address / 2 ^ 39 % 2 ^ 9, address / 2 ^ 30 % 2 ^ 9] := rfl
  change _ ∧ indices .longMode _ 3 0 = _ ↔ _
  rw [indices_longMode, htable]
  simp only [List.cons.injEq, and_true]
  constructor
  · rintro ⟨-, h3, h2, -, -⟩
    rw [offset_div, Nat.div_eq_of_lt (show 512 * mapper.recurseIndex * 2 ^ 12 < 2 ^ 39 by omega), Nat.or_zero] at h3
    rw [offset_div, Nat.div_eq_of_lt (show 512 * mapper.recurseIndex * 2 ^ 12 < 2 ^ 30 by omega), Nat.or_zero] at h2
    omega
  · rintro ⟨hlt, h0⟩
    rw [h0, offset_zero]
    refine ⟨canonical_longMode_add hb (by omega), ?_, ?_, ?_, ?_⟩ <;> omega

theorem reaches_longMode_two_iff (hplace : mapper.WellPlaced .longMode) (ha : PagingMode.longMode.Canonical address) :
    mapper.Reaches .longMode address 2 ↔ address < 2 ^ 47 ∧ mapper.recurseIndex = 0 := by
  obtain ⟨b, hbase, hindex, hb⟩ := base_longMode hplace
  rw [canonical_longMode] at ha
  rw [reaches_iff_indices (by decide) (by decide) (by decide) (map_longMode (k := 513) (by decide) (by decide)), hbase]
  have htable : tableIndices .longMode mapper address 2 =
      [mapper.recurseIndex, mapper.recurseIndex, mapper.recurseIndex, address / 2 ^ 39 % 2 ^ 9] := rfl
  change _ ∧ indices .longMode _ 3 0 = _ ↔ _
  rw [indices_longMode, htable]
  simp only [List.cons.injEq, and_true]
  constructor
  · rintro ⟨-, -, h2, h1, -⟩
    rw [offset_div, Nat.div_eq_of_lt (show 513 * mapper.recurseIndex * 2 ^ 12 < 2 ^ 30 by omega), Nat.or_zero] at h2
    rw [offset_div] at h1
    rcases ha with hlow | hhigh
    · exact ⟨hlow, by omega⟩
    · -- the index 127 is not the one that the sign bits give at the next level
      have hidx : mapper.recurseIndex = 127 := by omega
      have hbits : address / 2 ^ ((2 + 1) * 9 + 21) = 65535 := by omega
      rw [hidx, hbits] at h1
      exact absurd h1 (by decide)
  · rintro ⟨hlt, h0⟩
    rw [h0, offset_zero]
    refine ⟨canonical_longMode_add hb (by omega), ?_, ?_, ?_, ?_⟩ <;> omega

theorem reaches_longMode_iff (hplace : mapper.WellPlaced .longMode) (hlevel : level ≤ 3)
    (ha : PagingMode.longMode.Canonical address) :
    mapper.Reaches .longMode address level ↔
      address < 2 ^ 47 ∧ (level = 0 ∨ level < 3 ∧ mapper.recurseIndex = 0) := by
  obtain rfl | rfl | rfl | rfl : level = 0 ∨ level = 1 ∨ level = 2 ∨ level = 3 := by omega
  · rw [reaches_longMode_zero_iff hplace ha]
    omega
  · rw [reaches_longMode_one_iff hplace ha]
    omega
  · rw [reaches_longMode_two_iff hplace ha]
    omega
  · constructor
    · rintro ⟨v, hv, -⟩
      cases map_root_longMode.symm.trans hv
    · omega

end LongMode

section LongMode5Level

theorem indices_longMode5Level (b o : Nat) : indices .longMode5Level ((2 ^ 48 * b + o) % 2 ^ 64) 4 0 =
    [(b + o / 2 ^ 48) % 2 ^ 9, o / 2 ^ 39 % 2 ^ 9, o / 2 ^ 30 % 2 ^ 9, o / 2 ^ 21 % 2 ^ 9, o / 2 ^ 12 % 2 ^ 9] := by
  change [_, _, _, _, _] = _
  simp only [index_longMode5Level]
  rw [digit_add (by decide), digit_below (by decide) (by decide), digit_below (by decide) (by decide),
    digit_below (by decide) (by decide), digit_below (by decide) (by decide)]

theorem canonical_longMode5Level_add {b o : Nat} (hb : b < 2 ^ 8 ∨ 2 ^ 16 - 2 ^ 8 ≤ b ∧ b < 2 ^ 16) (ho : o < 2 ^ 48) :
    PagingMode.longMode5Level.Canonical ((2 ^ 48 * b + o) % 2 ^ 64) := by
  rw [canonical_longMode5Level, Nat.mod_eq_of_lt (by omega)]
  omega

theorem reaches_longMode5Level_zero_iff (hplace : mapper.WellPlaced .longMode5Level)
    (ha : PagingMode.longMode5Level.Canonical address) :
    mapper.Reaches .longMode5Level address 0 ↔ address < 2 ^ 56 := by
  obtain ⟨b, hbase, hindex, hb⟩ := base_longMode5Level hplace
  rw [canonical_longMode5Level] at ha
  rw [reaches_iff_indices (by decide) (by decide) (by decide) (map_longMode5Level (k := 0) (by decide) (by decide)), hbase,
    offset_pageTable]
  have htable : tableIndices .longMode5Level mapper address 0 = [mapper.recurseIndex, address / 2 ^ 48 % 2 ^ 9,
      address / 2 ^ 39 % 2 ^ 9, address / 2 ^ 30 % 2 ^ 9, address / 2 ^ 21 % 2 ^ 9] := rfl
  change _ ∧ indices .longMode5Level _ 4 0 = _ ↔ _
  rw [indices_longMode5Level, htable]
  simp only [List.cons.injEq, and_true]
  constructor
  · rintro ⟨-, h, -, -, -, -⟩
    omega
  · intro hlt
    refine ⟨canonical_longMode5Level_add hb (by omega), ?_, ?_, ?_, ?_, ?_⟩ <;> omega

theorem or_127 (x : Nat) : x ||| 127 = x / 2 ^ 7 * 2 ^ 7 + 127 := by
  have hdiv : (x ||| 127) / 2 ^ 7 = x / 2 ^ 7 := by rw [Nat.or_div_two_pow, Nat.or_zero]
  have hones : ∀ r < 128, r ||| 127 = 127 := by decide
  have hmod : (x ||| 127) % 2 ^ 7 = 127 := by
    rw [Nat.or_mod_two_pow]
    exact hones _ (Nat.mod_lt _ (by decide))
  rw [← Nat.div_add_mod (x ||| 127) (2 ^ 7), hdiv, hmod, Nat.mul_comm]

theorem reaches_longMode5Level_one_iff (hplace : mapper.WellPlaced .longMode5Level)
    (ha : PagingMode.longMode5Level.Canonical address) :
    mapper.Reaches .longMode5Level address 1 ↔ address < 2 ^ 56 ∧ mapper.recurseIndex = 0 ∨
      2 ^ 56 ≤ address ∧ mapper.recurseIndex = 127 ∧ address / 2 ^ 48 % 2 ^ 7 = 127 := by
  obtain ⟨b, hbase, hindex, hb⟩ := base_longMode5Level hplace
  rw [canonical_longMode5Level] at ha
  rw [reaches_iff_indices (by decide) (by decide) (by decide) (map_longMode5Level (k := 2 ^ 18) (by decide) (by decide)),
    hbase]
  have htable : tableIndices .longMode5Level mapper address 1 = [mapper.recurseIndex, mapper.recurseIndex,
      address / 2 ^ 48 % 2 ^ 9, address / 2 ^ 39 % 2 ^ 9, address / 2 ^ 30 % 2 ^ 9] := rfl
  change _ ∧ indices .longMode5Level _ 4 0 = _ ↔ _
  rw [indices_longMode5Level, htable]
  simp only [List.cons.injEq, and_true]
  have h30 : 2 ^ 18 * mapper.recurseIndex * 2 ^ 12 / 2 ^ 30 = mapper.recurseIndex := by omega
  constructor
  · rintro ⟨-, -, h3, h2, -⟩
    rw [offset_div, Nat.div_eq_of_lt (show 2 ^ 18 * mapper.recurseIndex * 2 ^ 12 < 2 ^ 39 by omega), Nat.or_zero] at h3
    rw [offset_div, h30] at h2
    rcases ha with hlow | hhigh
    · exact Or.inl ⟨hlow, by omega⟩
    · have hidx : mapper.recurseIndex = 127 := by omega
      rw [hidx, or_127] at h2
      exact Or.inr ⟨by omega, hidx, by omega⟩
  · rintro (⟨hlt, h0⟩ | ⟨hge, hidx, hbits⟩)
    · rw [h0, offset_zero]
      refine ⟨canonical_longMode5Level_add hb (by omega), ?_, ?_, ?_, ?_, ?_⟩ <;> omega
    · have ho : offset (2 ^ 18) mapper.recurseIndex 1 address < 2 ^ 48 := by
        rw [offset, Nat.shiftRight_eq_div_pow, Nat.shiftLeft_eq, hidx]
        exact Nat.or_lt_two_pow (by omega) (by decide)
      refine ⟨canonical_longMode5Level_add hb ho, ?_, ?_, ?_, ?_, ?_⟩
      · omega
      · rw [offset_div, hidx, Nat.div_eq_of_lt (show 2 ^ 18 * 127 * 2 ^ 12 < 2 ^ 39 by decide), Nat.or_zero]
        omega
      · rw [offset_div, h30, hidx, or_127]
        omega
      · rw [offset_div, hidx, Nat.or_mod_two_pow, show 2 ^ 18 * 127 * 2 ^ 12 / 2 ^ 21 % 2 ^ 9 = 0 by decide, Nat.or_zero]
      · rw [offset_div, hidx, Nat.or_mod_two_pow, show 2 ^ 18 * 127 * 2 ^ 12 / 2 ^ 12 % 2 ^ 9 = 0 by decide, Nat.or_zero]

theorem reaches_longMode5Level_two_iff (hplace : mapper.WellPlaced .longMode5Level)
    (ha : PagingMode.longMode5Level.Canonical address) :
    mapper.Reaches .longMode5Level address 2 ↔ address < 2 ^ 56 ∧ mapper.recurseIndex = 0 := by
  obtain ⟨b, hbase, hindex, hb⟩ := base_longMode5Level hplace
  rw [canonical_longMode5Level] at ha
  rw [reaches_iff_indices (by decide) (by decide) (by decide)
    (map_longMode5Level (k := 513 * 2 ^ 9) (by decide) (by decide)),
    hbase]
  have htable : tableIndices .longMode5Level mapper address 2 = [mapper.recurseIndex, mapper.recurseIndex,
      mapper.recurseIndex, address / 2 ^ 48 % 2 ^ 9, address / 2 ^ 39 % 2 ^ 9] := rfl
  change _ ∧ indices .longMode5Level _ 4 0 = _ ↔ _
  rw [indices_longMode5Level, htable]
  simp only [List.cons.injEq, and_true]
  constructor
  · rintro ⟨-, -, h3, h2, -⟩
    rw [offset_div, Nat.div_eq_of_lt (show 513 * 2 ^ 9 * mapper.recurseIndex * 2 ^ 12 < 2 ^ 39 by omega),
      Nat.or_zero] at h3
    have hidx : mapper.recurseIndex = 0 := by omega
    rw [hidx, offset_zero] at h2
    exact ⟨by omega, hidx⟩
  · rintro ⟨hlt, h0⟩
    rw [h0, offset_zero]
    refine ⟨canonical_longMode5Level_add hb (by omega), ?_, ?_, ?_, ?_, ?_⟩ <;> omega

theorem reaches_longMode5Level_three_iff (hplace : mapper.WellPlaced .longMode5Level)
    (ha : PagingMode.longMode5Level.Canonical address) :
    mapper.Reaches .longMode5Level address 3 ↔ address < 2 ^ 56 ∧ mapper.recurseIndex = 0 := by
  obtain ⟨b, hbase, hindex, hb⟩ := base_longMode5Level hplace
  rw [canonical_longMode5Level] at ha
  rw [reaches_iff_indices (by decide) (by decide) (by decide) (map_longMode5Level (k := 262657) (by decide) (by decide)),
    hbase]
  have htable : tableIndices .longMode5Level mapper address 3 = [mapper.recurseIndex, mapper.recurseIndex,
      mapper.recurseIndex, mapper.recurseIndex, address / 2 ^ 48 % 2 ^ 9] := rfl
  change _ ∧ indices .longMode5Level _ 4 0 = _ ↔ _
  rw [indices_longMode5Level, htable]
  simp only [List.cons.injEq, and_true]
  constructor
  · rintro ⟨-, -, h3, -, h1, -⟩
    rw [offset_div, Nat.div_eq_of_lt (show 262657 * mapper.recurseIndex * 2 ^ 12 < 2 ^ 39 by omega), Nat.or_zero] at h3
    have hidx : mapper.recurseIndex = 0 := by omega
    rw [hidx, offset_zero] at h1
    exact ⟨by omega, hidx⟩
  · rintro ⟨hlt, h0⟩
    rw [h0, offset_zero]
    refine ⟨canonical_longMode5Level_add hb (by omega), ?_, ?_, ?_, ?_, ?_⟩ <;> omega

theorem reaches_longMode5Level_iff (hplace : mapper.WellPlaced .longMode5Level) (hlevel : level ≤ 4)
    (ha : PagingMode.longMode5Level.Canonical address) :
    mapper.Reaches .longMode5Level address level ↔
      address < 2 ^ 56 ∧ (level = 0 ∨ level < 4 ∧ mapper.recurseIndex = 0) ∨
        level = 1 ∧ 2 ^ 56 ≤ address ∧ mapper.recurseIndex = 127 ∧ address / 2 ^ 48 % 2 ^ 7 = 127 := by
  obtain rfl | rfl | rfl | rfl | rfl : level = 0 ∨ level = 1 ∨ level = 2 ∨ level = 3 ∨ level = 4 := by omega
  · rw [reaches_longMode5Level_zero_iff hplace ha]
    omega
  · rw [reaches_longMode5Level_one_iff hplace ha]
    omega
  · rw [reaches_longMode5Level_two_iff hplace ha]
    omega
  · rw [reaches_longMode5Level_three_iff hplace ha]
    omega
  · constructor
    · rintro ⟨v, hv, -⟩
      cases map_root_longMode5Level.symm.trans hv
    · omega

end LongMode5Level

/-- When the address that is made for a table leads to it. The bits of an address in the upper half are
not taken off, and the self-map indices stand one place too low, where they are not all 0. -/
def Resolvable (m : PagingMode) (mapper : RecursiveMapper) (address level : Nat) : Prop :=
  match m with
  | .legacy => True
  | .pae => True
  | .longMode => address < 2 ^ 47 ∧ (level = 0 ∨ level < 3 ∧ mapper.recurseIndex = 0)
  | .longMode5Level =>
    address < 2 ^ 56 ∧ (level = 0 ∨ level < 4 ∧ mapper.recurseIndex = 0) ∨
      level = 1 ∧ 2 ^ 56 ≤ address ∧ mapper.recurseIndex = 127 ∧ address / 2 ^ 48 % 2 ^ 7 = 127

theorem map_reaches_iff (hplace : mapper.WellPlaced m) (hlevel : level ≤ m.tableLevel) (ha : m.Canonical address) :
    mapper.Reaches m address level ↔ mapper.Resolvable m address level := by
  cases m with
  | legacy => exact iff_of_true (reaches_legacy hplace hlevel (canonical_legacy.mp ha)) trivial
  | pae => exact iff_of_true (reaches_pae hplace hlevel (canonical_pae.mp ha)) trivial
  | longMode => exact reaches_longMode_iff hplace hlevel ha
  | longMode5Level => exact reaches_longMode5Level_iff hplace hlevel ha

/-- The place of the self-map in the loader. -/
theorem map_reaches_loader :
    RecursiveMapper.Reaches .legacy ⟨0x7F800000, 510⟩ 0xC0101000 0 ↔
      RecursiveMapper.Resolvable .legacy ⟨0x7F800000, 510⟩ 0xC0101000 0 :=
  map_reaches_iff ⟨by decide, by decide, by decide⟩ (by decide) (by decide)

theorem map_not_reaching :
    RecursiveMapper.WellPlaced .longMode ⟨0xFFFFFF0000000000, 510⟩ ∧ PagingMode.longMode.Canonical 0x400000 ∧
      ¬ RecursiveMapper.Reaches .longMode ⟨0xFFFFFF0000000000, 510⟩ 0x400000 1 := by
  have hplace : RecursiveMapper.WellPlaced .longMode ⟨0xFFFFFF0000000000, 510⟩ := ⟨by decide, by decide, by decide⟩
  have ha : PagingMode.longMode.Canonical 0x400000 := by decide
  refine ⟨hplace, ha, fun h => ?_⟩
  exact absurd ((reaches_longMode_one_iff hplace ha).mp h).2 (by decide)

end XviOs.Mmu.RecursiveMapper
