import Mathlib
import XviOs.Mmu.PageTable

namespace XviOs.Mmu

/-- A page that the loop over a range asks for. -/
structure MappedPage where
  address : Nat
  physical : Nat
  size : Nat
  deriving DecidableEq

namespace MappedPage

def range (p : MappedPage) : Set Nat := Set.Ico p.address (p.address + p.size)

end MappedPage

section Code

-- `pageSizes` has a bit for each size of page that the processor supports, at the place of the size

variable (m : PagingMode) (pageSizes : Nat)

def supports2MPages : Bool := m ≠ .legacy && pageSizes &&& 2 <<< 20 ≠ 0

def supports4MPages : Bool := m = .legacy && pageSizes &&& 4 <<< 20 ≠ 0

def supports1GPages : Bool := (m = .longMode || m = .longMode5Level) && pageSizes &&& 1 <<< 30 ≠ 0

def isAligned (address size physical pageSize : Nat) : Bool :=
  address &&& (pageSize - 1) = 0 && physical &&& (pageSize - 1) = 0 && size ≥ pageSize

def bestPageSize (address size physical : Nat) : Nat :=
  if supports1GPages m pageSizes && isAligned address size physical (1 <<< 30) then 1 <<< 30
  else if supports4MPages m pageSizes && isAligned address size physical (4 <<< 20) then 4 <<< 20
  else if supports2MPages m pageSizes && isAligned address size physical (2 <<< 20) then 2 <<< 20
  else 4 <<< 10

variable {S : Type} (mapOne : MappedPage → S → Bool × S)

/-- The loop, with what maps one page. It has no result when the fuel is used up before it ends. -/
def mapRangeImpl : Nat → Nat → Nat → Nat → S → Option (Bool × S)
  | 0, _, size, _, s => if size > 0 then none else some (true, s)
  | fuel + 1, address, size, physical, s =>
    if size > 0 then
      let pageSize := bestPageSize m pageSizes address size physical
      let result := mapOne ⟨address, physical, pageSize⟩ s
      if !result.1 then some (false, result.2)
      else mapRangeImpl fuel ((address + pageSize) % 2 ^ m.ptrBits) ((size + 2 ^ m.ptrBits - pageSize) % 2 ^ m.ptrBits)
        ((physical + pageSize) % 2 ^ m.entryBits) result.2
    else some (true, s)

/-- The values are cast to the types of the mode. -/
def mapRange (fuel address size physical : Nat) (s : S) : Option (Bool × S) :=
  mapRangeImpl m pageSizes mapOne fuel (address % 2 ^ m.ptrBits) (size % 2 ^ m.ptrBits) (physical % 2 ^ m.entryBits) s

namespace InitPageTable

/-- Nothing is asked of the values. -/
def addMapping (fuel vaddr size physical : Nat) (s : S) : Option (Bool × S) :=
  mapRange m pageSizes mapOne fuel vaddr size physical s

end InitPageTable

namespace MappedPageTable

/-- The test of the values that `add` starts with. -/
def accepts (address size physical : Nat) : Bool :=
  !(address &&& 4095 ≠ 0 || physical &&& 4095 ≠ 0 || size &&& 4095 ≠ 0)

def add (fuel address size physical : Nat) (s : S) : Option (Bool × S) :=
  if !accepts address size physical then some (false, s)
  else mapRange m pageSizes mapOne fuel address size physical s

end MappedPageTable

end Code

/-! ## The pages of a range -/

/-- The pages are apart, each at a multiple of its size, and are together the range, which is moved as a whole. -/
structure Tiles (pages : List MappedPage) (address size physical : Nat) : Prop where
  aligned : ∀ p ∈ pages, p.address % p.size = 0 ∧ p.physical % p.size = 0
  disjoint : pages.Pairwise fun p q => Disjoint p.range q.range
  covers : ∀ x, (∃ p ∈ pages, x ∈ p.range) ↔ x ∈ Set.Ico address (address + size)
  offset : ∀ p ∈ pages, p.physical + address = physical + p.address

/-- One page after the other, up to the first that cannot be mapped. -/
def mapAll {S : Type} (mapOne : MappedPage → S → Bool × S) : List MappedPage → S → Bool × S
  | [], s => (true, s)
  | p :: pages, s =>
    let result := mapOne p s
    if !result.1 then (false, result.2) else mapAll mapOne pages result.2

/-- With enough steps the call ends, and it maps pages that are together the range. -/
def MapsRange (call : ∀ {S : Type}, (MappedPage → S → Bool × S) → Nat → S → Option (Bool × S))
    (address size physical : Nat) : Prop :=
  ∃ pages, Tiles pages address size physical ∧
    ∃ n, ∀ fuel, n ≤ fuel → ∀ (S : Type) (mapOne : MappedPage → S → Bool × S) (s : S),
      call mapOne fuel s = some (mapAll mapOne pages s)

/-- Multiples of the smallest page. -/
def PageAligned (address size physical : Nat) : Prop :=
  address % 4096 = 0 ∧ size % 4096 = 0 ∧ physical % 4096 = 0

/-- The range is of addresses of the mode. -/
def Fits (m : PagingMode) (address size physical : Nat) : Prop :=
  size < 2 ^ m.ptrBits ∧ address + size ≤ 2 ^ m.ptrBits ∧ physical + size ≤ 2 ^ m.entryBits

variable {m : PagingMode} {pageSizes address size physical fuel z : Nat} {p : MappedPage} {pages : List MappedPage}

theorem tiles_nil (address physical : Nat) : Tiles [] address 0 physical :=
  ⟨by simp, List.Pairwise.nil, by simp, by simp⟩

theorem Tiles.cons (h : Tiles pages (address + z) size (physical + z)) (haddress : address % z = 0)
    (hphysical : physical % z = 0) : Tiles (⟨address, physical, z⟩ :: pages) address (z + size) physical where
  aligned := by
    rintro q hq
    obtain rfl | hq := List.mem_cons.1 hq
    · exact ⟨haddress, hphysical⟩
    · exact h.aligned q hq
  disjoint := by
    refine List.pairwise_cons.2 ⟨fun q hq => ?_, h.disjoint⟩
    rw [Set.disjoint_left]
    intro x hx hxq
    have hrest := (h.covers x).1 ⟨q, hq, hxq⟩
    exact absurd hx.2 (Nat.not_lt.2 hrest.1)
  covers := by
    intro x
    have hsplit : (∃ q ∈ (⟨address, physical, z⟩ :: pages : List MappedPage), x ∈ q.range) ↔
        x ∈ Set.Ico address (address + z) ∨ ∃ q ∈ pages, x ∈ q.range := by
      simp only [List.mem_cons, exists_eq_or_imp, MappedPage.range]
    rw [hsplit, h.covers x]
    simp only [Set.mem_Ico]
    omega
  offset := by
    intro q hq
    obtain rfl | hq := List.mem_cons.1 hq
    · rfl
    · have := h.offset q hq
      omega

/-! ## The loop -/

theorem isAligned_iff {k : Nat} : isAligned address size physical (2 ^ k) = true ↔
    address % 2 ^ k = 0 ∧ physical % 2 ^ k = 0 ∧ 2 ^ k ≤ size := by
  simp only [isAligned, Nat.and_two_pow_sub_one_eq_mod, Bool.and_eq_true, decide_eq_true_eq, and_assoc, ge_iff_le]

/-- The size is a power of two that the smallest page divides, and that divides the space of the mode. -/
theorem bestPageSize_spec (m : PagingMode) (pageSizes address size physical : Nat) :
    ∃ k, 12 ≤ k ∧ k ≤ 30 ∧ bestPageSize m pageSizes address size physical = 2 ^ k ∧
      (k = 12 ∨ address % 2 ^ k = 0 ∧ physical % 2 ^ k = 0 ∧ 2 ^ k ≤ size) := by
  rw [bestPageSize]
  split
  · rename_i h
    rw [Bool.and_eq_true] at h
    exact ⟨30, by decide, by decide, rfl, Or.inr (isAligned_iff.1 h.2)⟩
  · split
    · rename_i h
      rw [Bool.and_eq_true] at h
      exact ⟨22, by decide, by decide, rfl, Or.inr (isAligned_iff.1 h.2)⟩
    · split
      · rename_i h
        rw [Bool.and_eq_true] at h
        exact ⟨21, by decide, by decide, rfl, Or.inr (isAligned_iff.1 h.2)⟩
      · exact ⟨12, by decide, by decide, rfl, Or.inl rfl⟩

theorem two_pow_bits : 2 ^ 30 ∣ 2 ^ m.ptrBits ∧ 2 ^ 30 ∣ 2 ^ m.entryBits :=
  ⟨Nat.pow_dvd_pow _ (by cases m <;> decide), Nat.pow_dvd_pow _ (by cases m <;> decide)⟩

/-- From an aligned start, the loop takes aligned pages until nothing is left. -/
theorem mapRangeImpl_tiles (pageSizes : Nat) (halign : PageAligned address size physical)
    (hfits : Fits m address size physical) : ∃ pages, Tiles pages address size physical ∧
      ∀ fuel, size ≤ fuel → ∀ (S : Type) (mapOne : MappedPage → S → Bool × S) (s : S),
        mapRangeImpl m pageSizes mapOne fuel (address % 2 ^ m.ptrBits) size (physical % 2 ^ m.entryBits) s =
          some (mapAll mapOne pages s) := by
  obtain ⟨haddress, hsize, hphysical⟩ := halign
  obtain ⟨hlt, hend, hpend⟩ := hfits
  induction size using Nat.strong_induction_on generalizing address physical with
  | _ size ih =>
      rcases Nat.eq_zero_or_pos size with rfl | hpos
      · refine ⟨[], tiles_nil address physical, fun fuel _ S mapOne s => ?_⟩
        cases fuel <;> rfl
      · have hamod : address % 2 ^ m.ptrBits = address := Nat.mod_eq_of_lt (by omega)
        have hpmod : physical % 2 ^ m.entryBits = physical := Nat.mod_eq_of_lt (by omega)
        obtain ⟨k, h12, h30, hbest, hk⟩ := bestPageSize_spec m pageSizes address size physical
        have hpow : 2 ^ 12 ≤ 2 ^ k := Nat.pow_le_pow_right (by decide) h12
        obtain ⟨hak, hpk, hks⟩ : address % 2 ^ k = 0 ∧ physical % 2 ^ k = 0 ∧ 2 ^ k ≤ size := by
          obtain rfl | hk := hk
          · exact ⟨haddress, hphysical, by omega⟩
          · exact hk
        have hdvd : 2 ^ 12 ∣ 2 ^ k := Nat.pow_dvd_pow _ h12
        generalize 2 ^ k = z at *
        have hz : z % 4096 = 0 := Nat.mod_eq_zero_of_dvd hdvd
        obtain ⟨pages, htiles, hrun⟩ : ∃ pages, Tiles pages (address + z) (size - z) (physical + z) ∧ _ :=
          ih (size - z) (by omega) (by omega) (by omega) (by omega) (by omega) (by omega) (by omega)
        refine ⟨⟨address, physical, z⟩ :: pages, ?_, fun fuel hfuel S mapOne s => ?_⟩
        · have hsum : size = z + (size - z) := by omega
          rw [hsum]
          exact htiles.cons hak hpk
        · obtain ⟨fuel, rfl⟩ := Nat.exists_eq_succ_of_ne_zero (Nat.ne_zero_of_lt (hpos.trans_le hfuel))
          have hsub : (size + 2 ^ m.ptrBits - z) % 2 ^ m.ptrBits = size - z := by
            rw [Nat.sub_add_comm hks, Nat.add_mod_right, Nat.mod_eq_of_lt (by omega)]
          rw [hamod, hpmod, mapRangeImpl, if_pos hpos, mapAll, hbest]
          dsimp only
          split
          · rfl
          · rw [hsub]
            exact hrun fuel (by omega) S mapOne _

/-! ## What the pages say about the range -/

/-- A page that the loop may take: of a size of the processor, and in the space of the mode. -/
def Regular (m : PagingMode) (p : MappedPage) : Prop :=
  (∃ k, 12 ≤ k ∧ k ≤ 30 ∧ p.size = 2 ^ k) ∧ p.address < 2 ^ m.ptrBits ∧ p.physical < 2 ^ m.entryBits

def record (p : MappedPage) (log : List MappedPage) : Bool × List MappedPage := (true, log ++ [p])

theorem mapAll_record (pages log : List MappedPage) : mapAll record pages log = (true, log ++ pages) := by
  induction pages generalizing log with
  | nil => rw [mapAll, List.append_nil]
  | cons p pages ih =>
      change mapAll record pages (log ++ [p]) = _
      rw [ih, List.append_assoc]
      rfl

theorem mapRangeImpl_regular {log : List MappedPage} {result : Bool × List MappedPage}
    (haddress : address < 2 ^ m.ptrBits) (hphysical : physical < 2 ^ m.entryBits)
    (h : mapRangeImpl m pageSizes record fuel address size physical log = some result) :
    ∃ pages, result.2 = log ++ pages ∧ ∀ p ∈ pages, Regular m p := by
  induction fuel generalizing address size physical log with
  | zero =>
      rw [mapRangeImpl] at h
      split at h
      · cases h
      · cases h
        exact ⟨[], (List.append_nil _).symm, by simp⟩
  | succ fuel ih =>
      rw [mapRangeImpl] at h
      split at h
      · obtain ⟨k, h12, h30, hbest, -⟩ := bestPageSize_spec m pageSizes address size physical
        obtain ⟨pages, hresult, hpages⟩ := ih (Nat.mod_lt _ (Nat.two_pow_pos _)) (Nat.mod_lt _ (Nat.two_pow_pos _)) h
        refine ⟨_ :: pages, hresult.trans (List.append_assoc _ _ _), fun p hp => ?_⟩
        obtain rfl | hp := List.mem_cons.1 hp
        · exact ⟨⟨k, h12, h30, hbest⟩, haddress, hphysical⟩
        · exact hpages p hp
      · cases h
        exact ⟨[], (List.append_nil _).symm, by simp⟩

/-- An aligned number below a multiple stays below it with the step added. -/
theorem add_le_of_mod {a b z : Nat} (ha : a % z = 0) (hb : z ∣ b) (hlt : a < b) : a + z ≤ b := by
  obtain ⟨c, rfl⟩ := hb
  obtain ⟨d, rfl⟩ := Nat.dvd_of_mod_eq_zero ha
  have hdc : d < c := Nat.lt_of_mul_lt_mul_left hlt
  calc z * d + z = z * (d + 1) := (Nat.mul_succ z d).symm
    _ ≤ z * c := Nat.mul_le_mul_left z hdc

/-- Pages that are together a range have their alignment and their bounds to it. -/
theorem Tiles.pageAligned (h : Tiles pages address size physical) (hpages : ∀ p ∈ pages, Regular m p) (hpos : 0 < size) :
    PageAligned address size physical ∧ address + size ≤ 2 ^ m.ptrBits ∧ physical + size ≤ 2 ^ m.entryBits := by
  obtain ⟨p, hp, hfirst⟩ := (h.covers address).2 ⟨le_rfl, by omega⟩
  obtain ⟨q, hq, hlast⟩ := (h.covers (address + size - 1)).2 ⟨by omega, by omega⟩
  have hpin := (h.covers p.address).1 ⟨p, hp, ⟨le_rfl, hfirst.1.trans_lt hfirst.2⟩⟩
  have hqin := (h.covers (q.address + q.size - 1)).1 ⟨q, hq, ⟨by have := hlast.1; have := hlast.2; omega,
    by have := hlast.1; have := hlast.2; omega⟩⟩
  have hpstart : p.address = address := le_antisymm hfirst.1 hpin.1
  have hqend : q.address + q.size = address + size := by
    have h1 := hlast.1
    have h2 := hlast.2
    have h3 := hqin.2
    omega
  obtain ⟨hpa, hpp⟩ := h.aligned p hp
  obtain ⟨hqa, hqp⟩ := h.aligned q hq
  have hpo := h.offset p hp
  have hqo := h.offset q hq
  obtain ⟨⟨k, h12, h30, hk⟩, -, -⟩ := hpages p hp
  obtain ⟨⟨j, g12, g30, hj⟩, hqlt, hqplt⟩ := hpages q hq
  have hdvd {k : Nat} (hk : 12 ≤ k) : 2 ^ 12 ∣ 2 ^ k := Nat.pow_dvd_pow _ hk
  have hmul {a k : Nat} (hk : 12 ≤ k) (ha : a % 2 ^ k = 0) : a % 4096 = 0 :=
    Nat.mod_eq_zero_of_dvd ((hdvd hk).trans (Nat.dvd_of_mod_eq_zero ha))
  rw [hk] at hpa hpp
  rw [hj] at hqa hqp hqend
  have hqz : 2 ^ j % 4096 = 0 := Nat.mod_eq_zero_of_dvd (hdvd g12)
  have hbits := two_pow_bits (m := m)
  have hspace := add_le_of_mod hqa ((Nat.pow_dvd_pow 2 g30).trans hbits.1) hqlt
  have hpspace := add_le_of_mod hqp ((Nat.pow_dvd_pow 2 g30).trans hbits.2) hqplt
  have hpa' := hmul h12 hpa
  have hpp' := hmul h12 hpp
  have hqa' := hmul g12 hqa
  refine ⟨⟨?_, ?_, ?_⟩, ?_, ?_⟩ <;> omega

/-- The pages of a range are right for aligned values that fit the mode, and where there is nothing to map. -/
theorem mapRange_iff (m : PagingMode) (pageSizes address size physical : Nat) :
    MapsRange (fun mapOne fuel s => mapRange m pageSizes mapOne fuel address size physical s) address size physical ↔
      size = 0 ∨ PageAligned address size physical ∧ Fits m address size physical := by
  constructor
  · rintro ⟨pages, htiles, n, hrun⟩
    by_contra hnot
    obtain ⟨hne, hbad⟩ := not_or.1 hnot
    have hpos := Nat.pos_of_ne_zero hne
    have hrec := hrun n le_rfl (List MappedPage) record []
    rw [mapAll_record] at hrec
    have hmod (a k : Nat) : a % 2 ^ k < 2 ^ k := Nat.mod_lt _ (Nat.two_pow_pos _)
    obtain ⟨pages', hpages', hregular⟩ := mapRangeImpl_regular (hmod _ _) (hmod _ _) hrec
    obtain rfl : pages = pages' := by simpa using hpages'
    obtain ⟨halign, hend, hpend⟩ := htiles.pageAligned hregular hpos
    refine hbad ⟨halign, ?_, hend, hpend⟩
    by_contra hge
    have hsize : size % 2 ^ m.ptrBits = 0 := by
      rw [show size = 2 ^ m.ptrBits by omega]
      exact Nat.mod_self _
    have hnone : mapRange m pageSizes record n address size physical [] = some (true, []) := by
      rw [mapRange, hsize]
      cases n <;> rfl
    obtain rfl : pages = [] := by simpa using hrec.symm.trans hnone
    obtain ⟨p, hp, -⟩ := (htiles.covers address).2 ⟨le_rfl, by omega⟩
    simp at hp
  · rintro (rfl | ⟨halign, hfits⟩)
    · refine ⟨[], tiles_nil address physical, 0, fun fuel _ S mapOne s => ?_⟩
      change mapRange m pageSizes mapOne fuel address 0 physical s = _
      rw [mapRange, Nat.zero_mod]
      cases fuel <;> rfl
    · obtain ⟨pages, htiles, hrun⟩ := mapRangeImpl_tiles pageSizes halign hfits
      refine ⟨pages, htiles, size, fun fuel hfuel S mapOne s => ?_⟩
      change mapRange m pageSizes mapOne fuel address size physical s = _
      rw [mapRange, Nat.mod_eq_of_lt hfits.1]
      exact hrun fuel hfuel S mapOne s

theorem accepts_iff : MappedPageTable.accepts address size physical = true ↔ PageAligned address size physical := by
  have hmask (a : Nat) : a &&& 4095 = a % 4096 := Nat.and_two_pow_sub_one_eq_mod a 12
  simp only [MappedPageTable.accepts, hmask, PageAligned, Bool.not_eq_true', Bool.or_eq_false_iff, decide_eq_false_iff_not,
    not_not]
  tauto

/-- At both entry points the pages of a range are right for aligned values that fit the mode, and where there is
nothing to map; only one of them tests the alignment, and neither that the values fit. -/
theorem entryPoints_iff (m : PagingMode) (pageSizes address size physical : Nat) :
    (MapsRange (fun mapOne fuel s => InitPageTable.addMapping m pageSizes mapOne fuel address size physical s)
        address size physical ↔ size = 0 ∨ PageAligned address size physical ∧ Fits m address size physical) ∧
    (MappedPageTable.accepts address size physical = true →
      (MapsRange (fun mapOne fuel s => MappedPageTable.add m pageSizes mapOne fuel address size physical s)
        address size physical ↔ size = 0 ∨ Fits m address size physical)) := by
  refine ⟨mapRange_iff m pageSizes address size physical, fun haccepts => ?_⟩
  simp only [MappedPageTable.add, haccepts, Bool.not_true, Bool.false_eq_true, if_false]
  rw [mapRange_iff]
  have halign := accepts_iff.1 haccepts
  tauto

/-- A size that is no multiple of the smallest page. -/
theorem addMapping_odd_size : ¬ MapsRange
    (fun mapOne fuel s => InitPageTable.addMapping .longMode 0x200000 mapOne fuel 0x1000 0x800 0x1000 s)
    0x1000 0x800 0x1000 := by
  intro h
  obtain h | ⟨halign, -⟩ := (mapRange_iff _ _ _ _ _).1 h
  · exact absurd h (by decide)
  · exact absurd halign.2.1 (by decide)

theorem add_two_pages : MapsRange
    (fun mapOne fuel s => MappedPageTable.add .longMode 0x200000 mapOne fuel 0x1000 0x2000 0x5000 s)
    0x1000 0x2000 0x5000 :=
  ((entryPoints_iff .longMode 0x200000 0x1000 0x2000 0x5000).2 (by decide)).2
    (Or.inr ⟨by decide, by decide, by decide⟩)

end XviOs.Mmu
