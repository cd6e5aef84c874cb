import Mathlib.Tactic

namespace XviOs.Mmu

inductive PagingMode
  | legacy
  | pae
  | longMode
  | longMode5Level
  deriving DecidableEq

namespace PagingMode

variable (m : PagingMode)

/-- `TableLevel` of the root table; the tables with the pages have level 0. -/
def tableLevel : PagingMode → Nat
  | legacy => 1
  | pae => 2
  | longMode => 3
  | longMode5Level => 4

/-- The bits of a table entry, and of a physical address. -/
def entryBits : PagingMode → Nat
  | legacy => 32
  | _ => 64

/-- `PtrBits` -/
def ptrBits : PagingMode → Nat
  | legacy => 32
  | pae => 32
  | _ => 64

/-- `FullDecodedBits`: the index bits of a table that fills a page. -/
def fullDecodedBits : PagingMode → Nat
  | legacy => 10
  | _ => 9

/-- `LegacyPDPT`: the root table of the PAE mode has 4 entries. -/
def legacyPDPT (level : Nat) : Bool := m.ptrBits = 32 && level = 2

def decodedBits (level : Nat) : Nat := if m.legacyPDPT level then 2 else m.fullDecodedBits

def offsetBits (level : Nat) : Nat := 12 + level * m.fullDecodedBits

def pageSize (level : Nat) : Nat := 2 ^ m.offsetBits level

def entryCount (level : Nat) : Nat := 2 ^ m.decodedBits level

def indexForAddress (level address : Nat) : Nat := address / m.pageSize level % m.entryCount level

/-- The bits of a virtual address that the tables decode. -/
def addressBits : Nat := m.offsetBits m.tableLevel + m.decodedBits m.tableLevel

/-- The bits of an address above those that are decoded all equal the last one of these. -/
def Canonical (address : Nat) : Prop :=
  address < 2 ^ m.ptrBits ∧
    (m.addressBits < m.ptrBits →
      address < 2 ^ (m.addressBits - 1) ∨ 2 ^ m.ptrBits - 2 ^ (m.addressBits - 1) ≤ address)

instance (address : Nat) : Decidable (m.Canonical address) := by
  unfold Canonical
  infer_instance

section Numbers

theorem index_legacy_zero (a : Nat) : legacy.indexForAddress 0 a = a / 2 ^ 12 % 2 ^ 10 := rfl

theorem index_legacy_one (a : Nat) : legacy.indexForAddress 1 a = a / 2 ^ 22 % 2 ^ 10 := rfl

theorem index_longMode (level a : Nat) :
    longMode.indexForAddress level a = a / 2 ^ (12 + level * 9) % 2 ^ 9 := rfl

theorem index_longMode5Level (level a : Nat) :
    longMode5Level.indexForAddress level a = a / 2 ^ (12 + level * 9) % 2 ^ 9 := rfl

theorem canonical_legacy {a : Nat} : legacy.Canonical a ↔ a < 2 ^ 32 :=
  ⟨And.left, fun h => ⟨h, fun hlt => absurd hlt (by decide)⟩⟩

theorem canonical_pae {a : Nat} : pae.Canonical a ↔ a < 2 ^ 32 :=
  ⟨And.left, fun h => ⟨h, fun hlt => absurd hlt (by decide)⟩⟩

theorem canonical_longMode {a : Nat} :
    longMode.Canonical a ↔ a < 2 ^ 47 ∨ 2 ^ 64 - 2 ^ 47 ≤ a ∧ a < 2 ^ 64 := by
  change a < 2 ^ 64 ∧ (48 < 64 → a < 2 ^ 47 ∨ 2 ^ 64 - 2 ^ 47 ≤ a) ↔ _
  omega

theorem canonical_longMode5Level {a : Nat} :
    longMode5Level.Canonical a ↔ a < 2 ^ 56 ∨ 2 ^ 64 - 2 ^ 56 ≤ a ∧ a < 2 ^ 64 := by
  change a < 2 ^ 64 ∧ (57 < 64 → a < 2 ^ 56 ∨ 2 ^ 64 - 2 ^ 56 ≤ a) ↔ _
  omega

end Numbers

end PagingMode

end XviOs.Mmu

namespace XviOs.Mmu.PagingMode

variable {m : PagingMode} {a b level target k : Nat}

theorem pageSize_pos (m : PagingMode) (level : Nat) : 0 < m.pageSize level := Nat.two_pow_pos _

theorem pageSize_dvd (h : k ≤ level) : m.pageSize k ∣ m.pageSize level :=
  Nat.pow_dvd_pow _ (Nat.add_le_add_left (Nat.mul_le_mul_right _ h) _)

theorem pageSize_le (h : k ≤ level) : m.pageSize k ≤ m.pageSize level :=
  Nat.le_of_dvd (pageSize_pos m level) (pageSize_dvd h)

theorem two_pow_dvd_pageSize (m : PagingMode) (level : Nat) : 2 ^ 12 ∣ m.pageSize level := by
  apply Nat.pow_dvd_pow
  rw [offsetBits]
  omega

theorem pageSize_inj (h : m.pageSize k = m.pageSize level) : k = level := by
  have hbits := Nat.pow_right_injective (Nat.le_refl 2) h
  rw [offsetBits, offsetBits, Nat.add_left_cancel_iff] at hbits
  exact Nat.eq_of_mul_eq_mul_right (by cases m <;> decide) hbits

theorem pageSize_lt (h : k < level) : m.pageSize k < m.pageSize level :=
  Nat.lt_of_le_of_ne (pageSize_le (Nat.le_of_lt h)) fun heq => Nat.ne_of_lt h (pageSize_inj heq)

/-- A page of the next level has one page of this level for every entry of a table. -/
theorem pageSize_succ (h : level < m.tableLevel) : m.pageSize (level + 1) = m.pageSize level * m.entryCount level := by
  have hbits : m.decodedBits level = m.fullDecodedBits := by
    apply if_neg
    rw [legacyPDPT, Bool.and_eq_true, decide_eq_true_eq, decide_eq_true_eq]
    cases m with
    | legacy | pae =>
        change level < _ at h
        rintro ⟨-, rfl⟩
        exact absurd h (by decide)
    | longMode | longMode5Level =>
        rintro ⟨h, -⟩
        exact absurd h (by decide)
  rw [entryCount, hbits, pageSize, pageSize, ← Nat.pow_add, offsetBits, offsetBits, Nat.succ_mul, Nat.add_assoc]

/-- The addresses have the same indices from one level up to another. -/
def Agree (m : PagingMode) (target level a b : Nat) : Prop :=
  ∀ j, target ≤ j → j ≤ level → m.indexForAddress j b = m.indexForAddress j a

theorem Agree.succ (h : Agree m target level a b)
    (htop : m.indexForAddress (level + 1) b = m.indexForAddress (level + 1) a) : Agree m target (level + 1) a b := by
  intro j hj hle
  rcases Nat.lt_or_eq_of_le hle with hlt | rfl
  · exact h j hj (by omega)
  · exact htop

theorem Agree.pred (h : Agree m target (level + 1) a b) : Agree m target level a b :=
  fun j hj hle => h j hj (by omega)

section Root

theorem div_root_eq (ha : m.Canonical a) (hb : m.Canonical b)
    (h : m.indexForAddress m.tableLevel b = m.indexForAddress m.tableLevel a) :
    b / m.pageSize m.tableLevel = a / m.pageSize m.tableLevel := by
  cases m with
  | legacy =>
      rw [canonical_legacy] at ha hb
      change b / 2 ^ 22 % 2 ^ 10 = a / 2 ^ 22 % 2 ^ 10 at h
      change b / 2 ^ 22 = a / 2 ^ 22
      omega
  | pae =>
      rw [canonical_pae] at ha hb
      change b / 2 ^ 30 % 2 ^ 2 = a / 2 ^ 30 % 2 ^ 2 at h
      change b / 2 ^ 30 = a / 2 ^ 30
      omega
  | longMode =>
      rw [canonical_longMode] at ha hb
      change b / 2 ^ 39 % 2 ^ 9 = a / 2 ^ 39 % 2 ^ 9 at h
      change b / 2 ^ 39 = a / 2 ^ 39
      omega
  | longMode5Level =>
      rw [canonical_longMode5Level] at ha hb
      change b / 2 ^ 48 % 2 ^ 9 = a / 2 ^ 48 % 2 ^ 9 at h
      change b / 2 ^ 48 = a / 2 ^ 48
      omega

theorem canonical_of_div_root (ha : m.Canonical a) (h : b / m.pageSize m.tableLevel = a / m.pageSize m.tableLevel) :
    m.Canonical b := by
  cases m with
  | legacy =>
      rw [canonical_legacy] at ha ⊢
      change b / 2 ^ 22 = a / 2 ^ 22 at h
      omega
  | pae =>
      rw [canonical_pae] at ha ⊢
      change b / 2 ^ 30 = a / 2 ^ 30 at h
      omega
  | longMode =>
      rw [canonical_longMode] at ha ⊢
      change b / 2 ^ 39 = a / 2 ^ 39 at h
      omega
  | longMode5Level =>
      rw [canonical_longMode5Level] at ha ⊢
      change b / 2 ^ 48 = a / 2 ^ 48 at h
      omega

end Root

/-- A page is a part of a page of every higher level. -/
theorem div_pageSize_of_le (h : b / m.pageSize target = a / m.pageSize target) (hle : target ≤ level) :
    b / m.pageSize level = a / m.pageSize level := by
  obtain ⟨c, hc⟩ := pageSize_dvd (m := m) hle
  rw [hc, ← Nat.div_div_eq_div_mul, ← Nat.div_div_eq_div_mul, h]

theorem agree_of_div_eq (h : b / m.pageSize target = a / m.pageSize target) : Agree m target level a b := by
  intro j hj _
  rw [indexForAddress, indexForAddress, div_pageSize_of_le h hj]

theorem canonical_of_div_eq (ha : m.Canonical a) (hle : target ≤ m.tableLevel)
    (h : b / m.pageSize target = a / m.pageSize target) : m.Canonical b :=
  canonical_of_div_root ha (div_pageSize_of_le h hle)

/-- The indices from a level on tell the page. -/
theorem div_eq_of_agree (ha : m.Canonical a) (hb : m.Canonical b) (hle : target ≤ m.tableLevel)
    (h : Agree m target m.tableLevel a b) : b / m.pageSize target = a / m.pageSize target := by
  obtain ⟨n, hn⟩ := Nat.exists_eq_add_of_le hle
  induction n generalizing target with
  | zero =>
      rw [Nat.add_zero] at hn
      subst hn
      exact div_root_eq ha hb (h _ hle (Nat.le_refl _))
  | succ n ih =>
      have hnext : b / m.pageSize (target + 1) = a / m.pageSize (target + 1) :=
        ih (by omega) (fun j hj => h j (by omega)) (by omega)
      have hindex := h target (Nat.le_refl _) hle
      rw [pageSize_succ (by omega), ← Nat.div_div_eq_div_mul, ← Nat.div_div_eq_div_mul] at hnext
      rw [indexForAddress, indexForAddress] at hindex
      rw [← Nat.div_add_mod (b / m.pageSize target) (m.entryCount target), hnext, hindex, Nat.div_add_mod]

theorem div_eq_iff_agree (ha : m.Canonical a) (hb : m.Canonical b) (hle : target ≤ m.tableLevel) :
    b / m.pageSize target = a / m.pageSize target ↔ Agree m target m.tableLevel a b :=
  ⟨agree_of_div_eq, div_eq_of_agree ha hb hle⟩

end XviOs.Mmu.PagingMode
