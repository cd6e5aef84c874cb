import Mathlib.Data.Nat.Bitwise
import XviOs.Mmu.MapPage

namespace XviOs.Mmu

open Hardware

/-- The entry stands for the page, with the rights and the cache type that are asked for. The third bit of the cache
type has another place in the entry of a large page. -/
structure DecodesTo (m : PagingMode) (level page flags pat raw : Nat) : Prop where
  address : Entry.address m level raw = page
  page : Hardware.page m level raw = page
  present : raw.testBit 0 = true
  write : raw.testBit 1 = decide (flags &&& PageFlag.W ≠ 0)
  user : raw.testBit 2 = decide (flags &&& PageFlag.U ≠ 0)
  noExecute : m ≠ .legacy → raw.testBit 63 = decide (flags &&& PageFlag.X = 0)
  large : 0 < level → raw.testBit 7 = true
  writeThrough : raw.testBit 3 = pat.testBit 0
  cacheDisable : raw.testBit 4 = pat.testBit 1
  pageAttribute : raw.testBit (if level = 0 then 7 else 12) = pat.testBit 2

namespace PageTable

variable {m : PagingMode} {address page flags pat level table : Nat} {s : Tables}

theorem and_two_pow_ne_zero (x i : Nat) : decide (x &&& 2 ^ i ≠ 0) = x.testBit i := by
  rw [Nat.and_two_pow]
  cases x.testBit i <;> simp

theorem decide_pat (pat : Nat) : decide (pat &&& 1 ≠ 0) = pat.testBit 0 ∧ decide (pat &&& 2 ≠ 0) = pat.testBit 1 ∧
    decide (pat &&& 4 ≠ 0) = pat.testBit 2 :=
  ⟨and_two_pow_ne_zero pat 0, and_two_pow_ne_zero pat 1, and_two_pow_ne_zero pat 2⟩

theorem entryFlags_cacheBits : (entryFlags m flags pat level).testBit 3 = pat.testBit 0 ∧
    (entryFlags m flags pat level).testBit 4 = pat.testBit 1 := by
  obtain ⟨h0, h1, -⟩ := decide_pat pat
  simp only [testBit_entryFlags, PTE.largePage, PTE.cacheBit2, ← h0, ← h1]
  cases m <;> split <;> simp [PTE.present, PTE.user, PTE.write, PTE.noExecute, PTE.global, PTE.cacheBit0, PTE.cacheBit1,
    PagingMode.entryBits, Nat.testBit_eq_decide_div_mod_eq]

/-- The bit after those that no address has: a 4 kB page's `CacheBit2`, or the flag of a large page. -/
theorem entryFlags_bit_seven :
    (entryFlags m flags pat level).testBit 7 = if level = 0 then pat.testBit 2 else true := by
  obtain ⟨-, -, h2⟩ := decide_pat pat
  simp only [testBit_entryFlags, PTE.largePage, PTE.cacheBit2, ← h2]
  cases m <;> split <;> simp [PTE.present, PTE.user, PTE.write, PTE.noExecute, PTE.global, PTE.cacheBit0, PTE.cacheBit1,
    PagingMode.entryBits, Nat.testBit_eq_decide_div_mod_eq]

/-- `CacheBit2` of a large page is among the address bits, which `setAddress` clears. -/
theorem leafEntry_bit_twelve (hpage : page < 2 ^ physicalBits m) (halign : page.testBit 12 = false) :
    (leafEntry m page flags pat level).testBit 12 = false := by
  have hbits : 12 < m.entryBits := by
    cases m <;> decide
  rw [leafEntry, setAddress_eq hpage, Nat.testBit_or, halign, Nat.testBit_and, Entry.testBit_complement _ _ hbits,
    Entry.testBit_addressMask, decide_eq_true hbits]
  simp

/-- The address bits of the entry are those of the page. -/
theorem masked_leafEntry (hpage : page < 2 ^ physicalBits m) (halign : page % 2 ^ 12 = 0) :
    leafEntry m page flags pat level &&& PTE.addressMask m = page := by
  have hbits : physicalBits m ≤ 57 ∧ physicalBits m ≤ m.entryBits := by
    cases m <;> decide
  rw [leafEntry, setAddress_eq hpage]
  apply Nat.eq_of_testBit_eq
  intro i
  rw [Nat.testBit_and, Nat.testBit_or, Nat.testBit_and]
  by_cases hi : 12 ≤ i ∧ i < physicalBits m
  · have hmask : (PTE.addressMask m).testBit i = true := by
      rw [Entry.testBit_addressMask, decide_eq_true hi.1, decide_eq_true (by omega : i < 57),
        decide_eq_true (by omega : i < m.entryBits)]
      rfl
    rw [Entry.testBit_complement _ _ (by omega), hmask]
    simp
  · have hzero : page.testBit i = false := by
      by_cases hlow : i < 12
      · exact Entry.testBit_of_aligned halign hlow
      · exact Nat.testBit_lt_two_pow (Nat.lt_of_lt_of_le hpage (Nat.pow_le_pow_right (by decide) (by omega)))
    rw [hzero, Bool.or_false]
    cases hmask : (PTE.addressMask m).testBit i with
    | false => rw [Bool.and_false]
    | true =>
        rw [Entry.testBit_addressMask, Bool.and_eq_true, Bool.and_eq_true, decide_eq_true_eq, decide_eq_true_eq,
          decide_eq_true_eq] at hmask
        rw [Entry.testBit_complement _ _ hmask.2, Entry.testBit_addressMask, decide_eq_true hmask.1.1,
          decide_eq_true hmask.1.2, decide_eq_true hmask.2]
        simp

theorem pseSwizzleMask_testBit (i : Nat) : PTE.pseSwizzleMask.testBit i = (decide (13 ≤ i) && decide (i < 21)) := by
  rw [show PTE.pseSwizzleMask = (2 ^ 8 - 1) <<< 13 from rfl, Nat.testBit_shiftLeft, Nat.testBit_two_pow_sub_one]
  congr 1
  rw [decide_eq_decide]
  omega

theorem address_leafEntry (hpage : page < 2 ^ physicalBits m) (halign : page % m.pageSize level = 0) :
    Entry.address m level (leafEntry m page flags pat level) = page := by
  have h12 : page % 2 ^ 12 = 0 := Nat.mod_eq_zero_of_dvd
    ((PagingMode.two_pow_dvd_pageSize m level).trans (Nat.dvd_of_mod_eq_zero halign))
  rw [Entry.address, masked_leafEntry hpage h12]
  split
  · rename_i hswizzle
    have hlegacy : m = .legacy ∧ level = 1 := by
      cases m <;> simp [PTE.pse36Swizzle, PagingMode.entryBits] at hswizzle
      exact ⟨rfl, hswizzle.1⟩
    obtain ⟨rfl, rfl⟩ := hlegacy
    have h22 : page % 2 ^ 22 = 0 := halign
    have hbit (i : Nat) (hi : i < 21) : page.testBit i = false := by
      have hmod := Nat.testBit_mod_two_pow page 22 i
      rw [h22, Nat.zero_testBit, decide_eq_true (by omega : i < 22), Bool.true_and] at hmod
      exact hmod.symm
    have hupper : page &&& PTE.pseSwizzleMask = 0 := by
      apply Nat.eq_of_testBit_eq
      intro i
      rw [Nat.testBit_and, pseSwizzleMask_testBit, Nat.zero_testBit]
      by_cases hi : i < 21
      · rw [hbit i hi, Bool.false_and]
      · rw [decide_eq_false hi, Bool.and_false, Bool.and_false]
    have hlower : page &&& Entry.complement .legacy PTE.pseSwizzleMask = page := by
      apply Nat.eq_of_testBit_eq
      intro i
      rw [Nat.testBit_and]
      by_cases hi : i < 32
      · rw [Entry.testBit_complement _ _ hi, pseSwizzleMask_testBit]
        by_cases hlow : i < 21
        · rw [hbit i hlow, Bool.false_and]
        · rw [decide_eq_false hlow, Bool.and_false, Bool.not_false, Bool.and_true]
      · rw [Nat.testBit_lt_two_pow (Nat.lt_of_lt_of_le hpage (Nat.pow_le_pow_right (by decide) (Nat.le_of_not_lt hi))),
          Bool.false_and]
    dsimp only
    rw [hupper, hlower]
    simp
  · rfl

/-- What is written for a page decodes to it, unless the third bit of the cache type is asked for at a large page. -/
theorem addMapping_decodes_iff (hlevel : level = 0 ∨ largeLevel m level = true) (hpage : page < 2 ^ physicalBits m)
    (halign : page % m.pageSize level = 0) :
    DecodesTo m level page flags pat ((addMapping m address page (m.pageSize level) flags pat level table s).2.mem table
      (m.indexForAddress level address)) ↔ level = 0 ∨ pat.testBit 2 = false := by
  have h12 : page % 2 ^ 12 = 0 := Nat.mod_eq_zero_of_dvd
    ((PagingMode.two_pow_dvd_pageSize m level).trans (Nat.dvd_of_mod_eq_zero halign))
  have hentry : (addMapping m address page (m.pageSize level) flags pat level table s).2.mem table
      (m.indexForAddress level address) = leafEntry m page flags pat level := by
    rw [addMapping_leaf rfl]
    exact Memory.write_self
  rw [hentry]
  have hrights : rights m level (leafEntry m page flags pat level) = requested m flags :=
    rights_leafEntry hpage h12 (legacyPDPT_of_supported hlevel)
  rw [rights, legacyPDPT_of_supported hlevel, if_neg Bool.false_ne_true] at hrights
  obtain ⟨hwrite, huser, hexecute⟩ := Rights.mk.inj hrights
  have hlow {i : Nat} (hi : i < 12) :
      (leafEntry m page flags pat level).testBit i = (entryFlags m flags pat level).testBit i :=
    testBit_leafEntry hpage h12 hi
  obtain ⟨hthrough, hdisable⟩ : (entryFlags m flags pat level).testBit 3 = pat.testBit 0 ∧
    (entryFlags m flags pat level).testBit 4 = pat.testBit 1 := entryFlags_cacheBits
  have hseven : (entryFlags m flags pat level).testBit 7 = if level = 0 then pat.testBit 2 else true :=
    entryFlags_bit_seven
  have htwelve (h : level ≠ 0) : (leafEntry m page flags pat level).testBit 12 = false := by
    apply leafEntry_bit_twelve hpage
    have hdvd : 2 ^ 13 ∣ m.pageSize level := by
      apply Nat.pow_dvd_pow
      have hle : 9 ≤ m.fullDecodedBits := by cases m <;> decide
      have hmul : 1 * m.fullDecodedBits ≤ level * m.fullDecodedBits := Nat.mul_le_mul_right _ (Nat.pos_of_ne_zero h)
      rw [PagingMode.offsetBits]
      omega
    have hmod := Nat.testBit_mod_two_pow page 13 12
    rw [Nat.mod_eq_zero_of_dvd (hdvd.trans (Nat.dvd_of_mod_eq_zero halign)), Nat.zero_testBit] at hmod
    exact hmod.symm
  constructor
  · intro h
    by_contra hnot
    obtain ⟨hne, hpat⟩ := not_or.1 hnot
    have hattr := h.pageAttribute
    rw [if_neg hne, htwelve hne] at hattr
    exact hpat hattr.symm
  · intro h
    refine ⟨address_leafEntry hpage halign, page_leafEntry hpage halign (level_of_supported hlevel),
      present_leafEntry hpage h12, hwrite, huser, fun hm => ?_, fun hpos => ?_, ?_, ?_, ?_⟩
    · rw [decide_eq_false hm, Bool.false_or, Bool.false_or] at hexecute
      rw [← Bool.not_not ((leafEntry m page flags pat level).testBit 63), hexecute]
      simp
    · rw [hlow (by decide), hseven, if_neg (Nat.pos_iff_ne_zero.1 hpos)]
    · rw [hlow (by decide), hthrough]
    · rw [hlow (by decide), hdisable]
    · by_cases hzero : level = 0
      · rw [if_pos hzero, hlow (by decide), hseven, if_pos hzero]
      · rw [if_neg hzero, htwelve hzero, h.resolve_left hzero]

/-- A page of 2 MB with write combining, for which the third bit stands. -/
theorem leafEntry_loses_bit : ¬ DecodesTo .longMode 1 0x200000 PageFlag.W 0b110
    ((addMapping .longMode 0x200000 0x200000 0x200000 PageFlag.W 0b110 1 0x1000 ⟨fun _ _ => 0, []⟩).2.mem 0x1000 1) := by
  intro h
  exact absurd h.pageAttribute (by decide)

theorem addMapping_decodes_page : DecodesTo .longMode 0 0x1000 PageFlag.W 0b110
    ((addMapping .longMode 0x1000 0x1000 0x1000 PageFlag.W 0b110 0 0x1000 ⟨fun _ _ => 0, []⟩).2.mem 0x1000 1) :=
  (addMapping_decodes_iff (m := .longMode) (Or.inl rfl) (by decide) (by decide)).2 (Or.inl rfl)

end PageTable

end XviOs.Mmu
