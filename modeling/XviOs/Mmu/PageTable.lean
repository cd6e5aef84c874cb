import XviOs.Mmu.Address

namespace XviOs.Mmu

/-- The entries of the tables: the raw value at an index of a page of physical memory. -/
abbrev Memory := Nat → Nat → Nat

namespace Memory

def write (mem : Memory) (page index raw : Nat) : Memory :=
  Function.update mem page (Function.update (mem page) index raw)

end Memory

namespace PTE

def present : Nat := 0x001

def write : Nat := 0x002

def user : Nat := 0x004

def cacheBit0 : Nat := 0x008

def cacheBit1 : Nat := 0x010

/-- The bit of a large page's entry in the place of `CacheBit2` says that the page is large. -/
def cacheBit2 (level : Nat) : Nat := if level = 0 then 0x080 else 0x1000

def global : Nat := 0x100

def largePage (level : Nat) : Nat := if level = 0 then 0 else 0x080

/-- Nothing of the bit is left in an entry of 32 bits. -/
def noExecute (m : PagingMode) : Nat := 2 ^ 63 % 2 ^ m.entryBits

def addressMask (m : PagingMode) : Nat := 0x01fffffffffff000 % 2 ^ m.entryBits

def pseSwizzleShift : Nat := 19

def pseSwizzleMask : Nat := 0x001fe000

/-- `Pse36Swizzle` -/
def pse36Swizzle (m : PagingMode) (level : Nat) : Bool := m.entryBits = 32 && level = 1

end PTE

namespace Entry

open PTE

variable (m : PagingMode) (level raw : Nat)

def isPresent : Bool := raw &&& present ≠ 0

def isLargePage : Bool := raw &&& largePage level ≠ 0

/-- The bits of `~mask` -/
def complement (mask : Nat) : Nat := (2 ^ m.entryBits - 1) ^^^ mask

def address : Nat :=
  if pse36Swizzle m level && isLargePage level raw then
    let lower := raw &&& addressMask m &&& complement m pseSwizzleMask
    let upper := raw &&& addressMask m &&& pseSwizzleMask
    upper <<< pseSwizzleShift % 2 ^ m.entryBits ||| lower
  else raw &&& addressMask m

def setAddress (address : Nat) : Nat :=
  if pse36Swizzle m level && isLargePage level raw then
    let lower := address
    let upper := address >>> pseSwizzleShift &&& pseSwizzleMask
    raw &&& complement m (addressMask m) ||| lower ||| upper
  else raw &&& complement m (addressMask m) ||| address

end Entry

namespace PageFlag

def W : Nat := 0x02

def X : Nat := 0x04

def U : Nat := 0x08

def G : Nat := 0x10

end PageFlag

end XviOs.Mmu

namespace XviOs.Mmu

structure Rights where
  write : Bool
  user : Bool
  execute : Bool
  deriving DecidableEq

namespace Rights

def all : Rights := ⟨true, true, true⟩

/-- An access needs the rights of every table on the way. -/
def inter (r s : Rights) : Rights := ⟨r.write && s.write, r.user && s.user, r.execute && s.execute⟩

end Rights

/-- Where a walk ends: the level of the entry, the entry, and the rights on the way to the page. -/
structure Translation where
  level : Nat
  entry : Nat
  rights : Rights
  deriving DecidableEq

namespace Hardware

variable (m : PagingMode) (mem : Memory) (address : Nat)

/-- Bit 0 of an entry. -/
def present (raw : Nat) : Bool := raw.testBit 0

/-- Bit 7 of an entry of a directory. -/
def large (level raw : Nat) : Bool := 0 < level && raw.testBit 7

/-- The entry leads to another table. -/
def IsTable (raw : Nat) : Prop := present raw = true ∧ raw.testBit 7 = false

instance (raw : Nat) : Decidable (IsTable raw) := by
  unfold IsTable
  infer_instance

/-- The levels at which an entry may stand for a large page. -/
def largeLevel (level : Nat) : Bool :=
  match m with
  | .legacy => level = 1
  | .pae => level = 1
  | _ => level = 1 || level = 2

/-- The bits of a physical address. -/
def physicalBits : PagingMode → Nat
  | .legacy => 32
  | _ => 52

/-- The rights that an entry leaves. The entries of the root table of the PAE mode have none. -/
def rights (level raw : Nat) : Rights :=
  if m.legacyPDPT level then Rights.all
  else ⟨raw.testBit 1, raw.testBit 2, m = .legacy || !raw.testBit 63⟩

/-- Where the next table, or a page of 4 kB, starts. -/
def frame (raw : Nat) : Nat := raw / 2 ^ 12 % 2 ^ (physicalBits m - 12) * 2 ^ 12

/-- Where a page starts. The bits 13 to 20 of a legacy large page are higher address bits. -/
def page (level raw : Nat) : Nat :=
  if level = 0 then frame m raw
  else if m = .legacy then raw / 2 ^ 22 % 2 ^ 10 * 2 ^ 22 + raw / 2 ^ 13 % 2 ^ 8 * 2 ^ 32
  else raw / m.pageSize level % 2 ^ (52 - m.offsetBits level) * m.pageSize level

/-- The walk from a table on. An entry for a large page at a level without them is a fault. -/
def walk : Nat → Nat → Rights → Option Translation
  | 0, table, r =>
    let raw := mem table (m.indexForAddress 0 address)
    if present raw then some ⟨0, raw, r.inter (rights m 0 raw)⟩ else none
  | level + 1, table, r =>
    let raw := mem table (m.indexForAddress (level + 1) address)
    if present raw then
      if large (level + 1) raw then
        if largeLevel m (level + 1) then some ⟨level + 1, raw, r.inter (rights m (level + 1) raw)⟩ else none
      else walk level (frame m raw) (r.inter (rights m (level + 1) raw))
    else none

/-- The walk from the root table. -/
def resolve (root : Nat) : Option Translation :=
  if m.Canonical address then walk m mem address m.tableLevel root Rights.all else none

end Hardware

end XviOs.Mmu

namespace XviOs.Mmu

/-- The tables in physical memory, and what the page allocator returns next: a page, or 0 for a failure. -/
structure Tables where
  mem : Memory
  pages : List Nat

namespace PageTable

variable (m : PagingMode)

/-- The entry for a sub-table. The root table of the PAE mode has entries with fewer flags. -/
def subTableEntry (level page extraFlags : Nat) : Nat :=
  let flags := PTE.present ||| PTE.write
  if m.legacyPDPT level then
    page ||| flags &&& Entry.complement m PTE.write |||
      extraFlags &&& Entry.complement m (PTE.user ||| PTE.write ||| PTE.noExecute m)
  else page ||| flags ||| extraFlags

def addSubTable (level table address page extraFlags : Nat) (mem : Memory) : Memory :=
  mem.write table (m.indexForAddress level address) (subTableEntry m level page extraFlags)

section AddMapping

variable (address page size flags pat : Nat)

/-- The flags of the entry for a page. -/
def entryFlags (level : Nat) : Nat :=
  let entry := PTE.largePage level
  let entry := entry ||| PTE.present
  let entry := if flags &&& PageFlag.U ≠ 0 then entry ||| PTE.user else entry
  let entry := if flags &&& PageFlag.W ≠ 0 then entry ||| PTE.write else entry
  let entry := if flags &&& PageFlag.X = 0 then entry ||| PTE.noExecute m else entry
  let entry := if flags &&& PageFlag.G ≠ 0 then entry ||| PTE.global else entry
  let entry := if pat &&& 1 ≠ 0 then entry ||| PTE.cacheBit0 else entry
  let entry := if pat &&& 2 ≠ 0 then entry ||| PTE.cacheBit1 else entry
  if pat &&& 4 ≠ 0 then entry ||| PTE.cacheBit2 level else entry

def leafEntry (level : Nat) : Nat := Entry.setAddress m level (entryFlags m flags pat level) page

def subtableFlags : Nat := if flags &&& PageFlag.U ≠ 0 then PTE.user else 0

/-- A table is written where its page is, which is what the identity mapper makes of it. -/
def addMapping : Nat → Nat → Tables → Bool × Tables
  | 0, table, s =>
    if size = m.pageSize 0 then
      (true, { s with mem := s.mem.write table (m.indexForAddress 0 address) (leafEntry m page flags pat 0) })
    else (false, s)
  | level + 1, table, s =>
    let index := m.indexForAddress (level + 1) address
    if size = m.pageSize (level + 1) then
      (true, { s with mem := s.mem.write table index (leafEntry m page flags pat (level + 1)) })
    else if size > m.pageSize level then (false, s)
    else
      let raw := s.mem table index
      -- whether the entry is for a large page is not asked
      if Entry.isPresent raw then addMapping level (Entry.address m (level + 1) raw) s
      else
        let subtable := s.pages.headD 0
        let pages := s.pages.tail
        if subtable = 0 then (false, { s with pages })
        else
          let mem := addSubTable m (level + 1) table address subtable (subtableFlags flags) s.mem
          addMapping level subtable { mem, pages }

def mapOnePage (root : Nat) (s : Tables) : Bool × Tables :=
  addMapping m address page size flags pat m.tableLevel root s

end AddMapping

section RemoveMappings

/-- What is done about one entry. The request is passed on to a table. -/
def removeMapping (level table address size : Nat) (sub : Nat → Memory → Option (Bool × Memory)) (mem : Memory) :
    Option (Bool × Memory) :=
  let index := m.indexForAddress level address
  let raw := mem table index
  if Entry.isPresent raw then
    if 0 < level then
      if Entry.isLargePage level raw then
        if size ≠ m.pageSize level then some (false, mem) else some (true, mem.write table index 0)
      else sub (Entry.address m level raw) mem
    else some (true, mem.write table index 0)
  else some (true, mem)

/-- The loop of `removeMappings`. It has no result when the fuel is used up before it ends. -/
def rounds (level : Nat) (body : Nat → Nat → Memory → Option (Bool × Memory)) :
    Nat → Nat → Nat → Nat → Memory → Option (Bool × Memory)
  | 0, done, _, size, mem => if done < size then none else some (true, mem)
  | fuel + 1, done, address, size, mem =>
    if done < size then
      match body address (min (m.pageSize level) (size - done)) mem with
      | some (true, mem) =>
        rounds level body fuel ((done + m.pageSize level) % 2 ^ m.ptrBits)
          ((address + m.pageSize level) % 2 ^ m.ptrBits) size mem
      | result => result
    else some (true, mem)

def removeMappings (fuel : Nat) : Nat → Nat → Nat → Nat → Memory → Option (Bool × Memory)
  | 0, table, address, size, mem =>
    rounds m 0 (fun address size mem => removeMapping m 0 table address size (fun _ mem => some (true, mem)) mem)
      fuel 0 address size mem
  | level + 1, table, address, size, mem =>
    rounds m (level + 1) (fun address size mem =>
      removeMapping m (level + 1) table address size
        (fun subtable mem => removeMappings fuel level subtable address size mem) mem)
      fuel 0 address size mem

def unmapPages (fuel root address size : Nat) (mem : Memory) : Option (Bool × Memory) :=
  removeMappings m fuel m.tableLevel root address size mem

end RemoveMappings

end PageTable

end XviOs.Mmu

namespace XviOs.Mmu

namespace Rights

theorem all_inter (r : Rights) : all.inter r = r := by
  simp only [inter, all, Bool.true_and]

theorem inter_assoc (r s t : Rights) : (r.inter s).inter t = r.inter (s.inter t) := by
  simp only [inter, Bool.and_assoc]

end Rights

namespace Hardware

section Definitions

variable (m : PagingMode) (mem : Memory) (address : Nat)

/-- The table of a level on the way to an address, and the rights up to there. -/
def walkTo (target : Nat) : Nat → Nat → Rights → Option (Nat × Rights)
  | 0, table, r => if target = 0 then some (table, r) else none
  | level + 1, table, r =>
    if target = level + 1 then some (table, r)
    else
      let raw := mem table (m.indexForAddress (level + 1) address)
      if IsTable raw then walkTo target level (frame m raw) (r.inter (rights m (level + 1) raw)) else none

/-- A walk from the root comes to the table. -/
def Visits (root level table : Nat) : Prop :=
  ∃ r, walkTo m mem address level m.tableLevel root Rights.all = some (table, r)

end Definitions

variable {m : PagingMode} {mem mem' : Memory} {a b root table t u level target k : Nat} {r r' : Rights}

theorem not_large {raw : Nat} (h : IsTable raw) : large level raw = false := by
  rw [large, h.2, Bool.and_false]

theorem large_of_not_isTable {raw : Nat} (hp : present raw = true) (h : ¬ IsTable raw) : large (level + 1) raw = true := by
  rw [large, Bool.and_eq_true, decide_eq_true_eq]
  exact ⟨Nat.succ_pos _, by simpa only [IsTable, hp, true_and, Bool.not_eq_false] using h⟩

theorem walkTo_self : walkTo m mem a level level table r = some (table, r) := by
  cases level with
  | zero => exact if_pos rfl
  | succ level => exact if_pos rfl

theorem walkTo_step (h : target ≤ level) :
    walkTo m mem a target (level + 1) table r =
      if IsTable (mem table (m.indexForAddress (level + 1) a)) then
        walkTo m mem a target level (frame m (mem table (m.indexForAddress (level + 1) a)))
          (r.inter (rights m (level + 1) (mem table (m.indexForAddress (level + 1) a))))
      else none :=
  if_neg (by omega)

theorem le_of_walkTo (h : walkTo m mem a target level table r = some (u, r')) : target ≤ level := by
  induction level generalizing table r with
  | zero =>
      rw [walkTo] at h
      split at h
      · omega
      · cases h
  | succ level ih =>
      rw [walkTo] at h
      split at h
      · omega
      · dsimp only at h
        split at h
        · exact Nat.le_succ_of_le (ih h)
        · cases h

/-- What holds of the table where a walk has come to, and of a table when it holds of the next one. -/
theorem walkTo_induction {motive : Nat → Nat → Rights → Prop} (h : walkTo m mem a target level table r = some (u, r'))
    (here : motive target u r')
    (step : ∀ level table r, target ≤ level → IsTable (mem table (m.indexForAddress (level + 1) a)) →
      motive level (frame m (mem table (m.indexForAddress (level + 1) a)))
        (r.inter (rights m (level + 1) (mem table (m.indexForAddress (level + 1) a)))) → motive (level + 1) table r) :
    motive level table r := by
  induction level generalizing table r with
  | zero =>
      rcases Nat.le_zero.mp (le_of_walkTo h) with rfl
      rw [walkTo_self] at h
      cases h
      exact here
  | succ level ih =>
      rcases Nat.lt_or_eq_of_le (le_of_walkTo h) with hlt | rfl
      · rw [walkTo_step (by omega)] at h
        split at h
        · exact step _ _ _ (by omega) ‹_› (ih h)
        · cases h
      · rw [walkTo_self] at h
        cases h
        exact here

/-- The rest of a walk is a walk from the table that it has come to. -/
theorem walk_of_walkTo (h : walkTo m mem a target level table r = some (u, r')) :
    walk m mem a level table r = walk m mem a target u r' := by
  refine walkTo_induction (motive := fun level table r => walk m mem a level table r = _) h rfl ?_
  intro level table r _ htable ih
  rw [walk, if_pos htable.1, not_large htable, if_neg Bool.false_ne_true, ih]

theorem walkTo_trans (h : walkTo m mem a k level table r = some (u, r')) (hle : target ≤ k) :
    walkTo m mem a target level table r = walkTo m mem a target k u r' := by
  refine walkTo_induction (motive := fun level table r => walkTo m mem a target level table r = _) h rfl ?_
  intro level table r hk htable ih
  rw [walkTo_step (by omega), if_pos htable, ih]

/-- Two addresses with the same indices lead to the same table, where the entries on the way are the same. -/
theorem walkTo_congr (hle : target ≤ level)
    (hindex : ∀ j, target < j → j ≤ level → m.indexForAddress j b = m.indexForAddress j a)
    (hmem : ∀ k u s, target < k → walkTo m mem a k level table r = some (u, s) →
      mem' u (m.indexForAddress k a) = mem u (m.indexForAddress k a)) :
    walkTo m mem' b target level table r = walkTo m mem a target level table r := by
  induction level generalizing table r with
  | zero =>
      rcases Nat.le_zero.mp hle with rfl
      rfl
  | succ level ih =>
      rcases Nat.lt_or_eq_of_le hle with hlt | rfl
      · have htop := hmem (level + 1) table r hlt walkTo_self
        rw [walkTo_step (by omega), walkTo_step (by omega), hindex _ hlt (Nat.le_refl _), htop]
        split
        · refine ih (by omega) (fun j hj hle => hindex j hj (by omega)) fun k u s hk h => hmem k u s hk ?_
          rw [walkTo_step (le_of_walkTo h), if_pos ‹_›, h]
        · rfl
      · rw [walkTo_self, walkTo_self]

theorem walk_congr (hmem : ∀ k u s, walkTo m mem a k level table r = some (u, s) →
      mem' u (m.indexForAddress k a) = mem u (m.indexForAddress k a)) :
    walk m mem' a level table r = walk m mem a level table r := by
  induction level generalizing table r with
  | zero => rw [walk, walk, hmem 0 table r walkTo_self]
  | succ level ih =>
      rw [walk, walk, hmem (level + 1) table r walkTo_self]
      by_cases htable : IsTable (mem table (m.indexForAddress (level + 1) a))
      · rw [if_pos htable.1, not_large htable, if_neg Bool.false_ne_true, if_pos htable.1, if_neg Bool.false_ne_true]
        refine ih fun k u s h => hmem k u s ?_
        rw [walkTo_step (le_of_walkTo h), if_pos htable, h]
      · by_cases hpresent : present (mem table (m.indexForAddress (level + 1) a)) = true
        · rw [if_pos hpresent, if_pos hpresent, if_pos (large_of_not_isTable hpresent htable),
            if_pos (large_of_not_isTable hpresent htable)]
        · rw [if_neg hpresent, if_neg hpresent]

end Hardware

end XviOs.Mmu
