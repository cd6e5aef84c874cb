import XviOs.Mmu.PageTable

namespace XviOs.Mmu

open Hardware

variable {m : PagingMode} {level raw page flags pat : Nat}

namespace Entry

theorem isPresent_eq (raw : Nat) : isPresent raw = present raw := by
  rw [isPresent, PTE.present, Nat.and_one_is_mod, present, Nat.testBit_zero]
  rcases Nat.mod_two_eq_zero_or_one raw with h | h <;> rw [h] <;> rfl

theorem testBit_addressMask (i : Nat) :
    (PTE.addressMask m).testBit i = (decide (12 ≤ i) && decide (i < 57) && decide (i < m.entryBits)) := by
  rw [PTE.addressMask, Nat.testBit_mod_two_pow, show 0x01fffffffffff000 = (2 ^ 45 - 1) <<< 12 from rfl,
    Nat.testBit_shiftLeft, Nat.testBit_two_pow_sub_one, Bool.and_comm]
  congr 2
  rw [decide_eq_decide]
  omega

theorem testBit_complement (mask i : Nat) (hi : i < m.entryBits) : (complement m mask).testBit i = !mask.testBit i := by
  rw [complement, Nat.testBit_xor, Nat.testBit_two_pow_sub_one, decide_eq_true hi, Bool.true_xor]

/-- An address is put where the address was. -/
theorem masked_div {n k : Nat} (hn : 12 ≤ n) (hk : k ≤ 57) (hbits : k ≤ m.entryBits) :
    (raw &&& complement m (PTE.addressMask m)) / 2 ^ n % 2 ^ (k - n) = 0 := by
  apply Nat.eq_of_testBit_eq
  intro i
  rw [Nat.testBit_mod_two_pow, Nat.testBit_div_two_pow, Nat.testBit_and, Nat.zero_testBit]
  by_cases hi : i < k - n
  · rw [testBit_complement _ _ (by omega), testBit_addressMask, decide_eq_true (show 12 ≤ i + n by omega),
      decide_eq_true (show i + n < 57 by omega), decide_eq_true (show i + n < m.entryBits by omega)]
    simp only [Bool.and_self, Bool.not_true, Bool.and_false]
  · rw [decide_eq_false hi, Bool.false_and]

theorem masked_testBit {i : Nat} (hi : i < 12 ∨ i = 63) (hbits : i < m.entryBits) :
    (raw &&& complement m (PTE.addressMask m)).testBit i = raw.testBit i := by
  rw [Nat.testBit_and, testBit_complement _ _ hbits, testBit_addressMask]
  rcases hi with hi | rfl
  · rw [decide_eq_false (show ¬ 12 ≤ i by omega)]
    simp only [Bool.false_and, Bool.not_false, Bool.and_true]
  · simp only [Nat.reduceLT, decide_false, Bool.and_false, Bool.false_and, Bool.not_false, Bool.and_true]

theorem testBit_of_aligned {i : Nat} (halign : page % 2 ^ 12 = 0) (hi : i < 12) : page.testBit i = false := by
  have hmod := Nat.testBit_mod_two_pow page 12 i
  rw [halign, Nat.zero_testBit, decide_eq_true hi, Bool.true_and] at hmod
  exact hmod.symm

end Entry

namespace PageTable

/-- What a mapping is to allow. There is no bit against execution in the entries of 32 bits. -/
def requested (m : PagingMode) (flags : Nat) : Rights :=
  ⟨flags &&& PageFlag.W ≠ 0, flags &&& PageFlag.U ≠ 0, m = .legacy || decide (flags &&& PageFlag.X ≠ 0)⟩

section LeafEntry

theorem or_ite (c : Prop) [Decidable c] (x b : Nat) : (if c then x ||| b else x) = x ||| if c then b else 0 := by
  split
  · rfl
  · rw [Nat.or_zero]

theorem testBit_ite (c : Prop) [Decidable c] (b i : Nat) :
    (if c then b else 0).testBit i = (decide c && b.testBit i) := by
  split
  · rw [decide_eq_true ‹_›, Bool.true_and]
  · rw [decide_eq_false ‹_›, Bool.false_and, Nat.zero_testBit]

theorem testBit_entryFlags (i : Nat) : (entryFlags m flags pat level).testBit i =
    ((PTE.largePage level).testBit i || PTE.present.testBit i ||
      (decide (flags &&& PageFlag.U ≠ 0) && PTE.user.testBit i) ||
      (decide (flags &&& PageFlag.W ≠ 0) && PTE.write.testBit i) ||
      (decide (flags &&& PageFlag.X = 0) && (PTE.noExecute m).testBit i) ||
      (decide (flags &&& PageFlag.G ≠ 0) && PTE.global.testBit i) ||
      (decide (pat &&& 1 ≠ 0) && PTE.cacheBit0.testBit i) ||
      (decide (pat &&& 2 ≠ 0) && PTE.cacheBit1.testBit i) ||
      (decide (pat &&& 4 ≠ 0) && (PTE.cacheBit2 level).testBit i)) := by
  simp only [entryFlags, or_ite, Nat.testBit_or, testBit_ite]

theorem setAddress_eq (hpage : page < 2 ^ physicalBits m) :
    Entry.setAddress m level raw page = raw &&& Entry.complement m (PTE.addressMask m) ||| page := by
  rw [Entry.setAddress]
  split
  · rename_i hswizzle
    have hm : m = .legacy := by
      cases m with
      | legacy => rfl
      | _ => exact absurd hswizzle (by simp [PTE.pse36Swizzle, PagingMode.entryBits])
    subst hm
    have hlow : page >>> PTE.pseSwizzleShift < 2 ^ 13 := by
      rw [Nat.shiftRight_eq_div_pow]
      exact Nat.div_lt_of_lt_mul hpage
    have hupper : page >>> PTE.pseSwizzleShift &&& PTE.pseSwizzleMask = 0 := by
      rw [show PTE.pseSwizzleMask = 2 ^ 13 * 255 from rfl]
      apply Nat.eq_of_testBit_eq
      intro i
      rw [Nat.testBit_and, Nat.zero_testBit, Nat.testBit_two_pow_mul]
      by_cases hi : 13 ≤ i
      · rw [Nat.testBit_lt_two_pow (Nat.lt_of_lt_of_le hlow (Nat.pow_le_pow_right (by decide) hi)), Bool.false_and]
      · rw [decide_eq_false hi, Bool.false_and, Bool.and_false]
    dsimp only
    rw [hupper, Nat.or_zero]
  · rfl

theorem testBit_leafEntry {i : Nat} (hpage : page < 2 ^ physicalBits m) (halign : page % 2 ^ 12 = 0) (hi : i < 12) :
    (leafEntry m page flags pat level).testBit i = (entryFlags m flags pat level).testBit i := by
  have hbits : 12 ≤ m.entryBits := by
    cases m <;> decide
  rw [leafEntry, setAddress_eq hpage, Nat.testBit_or, Entry.masked_testBit (Or.inl hi) (by omega),
    Entry.testBit_of_aligned halign hi, Bool.or_false]

theorem testBit_leafEntry_63 (hpage : page < 2 ^ physicalBits m) (hm : m ≠ .legacy) :
    (leafEntry m page flags pat level).testBit 63 = (entryFlags m flags pat level).testBit 63 := by
  have hbits : m.entryBits = 64 ∧ physicalBits m = 52 := by
    cases m with
    | legacy => exact absurd rfl hm
    | _ => exact ⟨rfl, rfl⟩
  rw [hbits.2] at hpage
  rw [leafEntry, setAddress_eq (hbits.2 ▸ hpage), Nat.testBit_or, Entry.masked_testBit (Or.inr rfl) (by omega),
    Nat.testBit_lt_two_pow (Nat.lt_of_lt_of_le hpage (by decide)), Bool.or_false]

theorem present_leafEntry (hpage : page < 2 ^ physicalBits m) (halign : page % 2 ^ 12 = 0) :
    present (leafEntry m page flags pat level) = true := by
  rw [present, testBit_leafEntry hpage halign (by decide), testBit_entryFlags]
  simp [PTE.present]

theorem large_leafEntry (hpage : page < 2 ^ physicalBits m) (halign : page % 2 ^ 12 = 0) :
    large level (leafEntry m page flags pat level) = decide (0 < level) := by
  rw [large]
  by_cases hlevel : 0 < level
  · rw [testBit_leafEntry hpage halign (by decide), testBit_entryFlags, decide_eq_true hlevel, PTE.largePage,
      if_neg (Nat.pos_iff_ne_zero.mp hlevel)]
    rfl
  · rw [decide_eq_false hlevel, Bool.false_and]

theorem rights_leafEntry (hpage : page < 2 ^ physicalBits m) (halign : page % 2 ^ 12 = 0)
    (hlevel : m.legacyPDPT level = false) : rights m level (leafEntry m page flags pat level) = requested m flags := by
  have hwrite : (entryFlags m flags pat level).testBit 1 = decide (flags &&& PageFlag.W ≠ 0) := by
    rw [testBit_entryFlags, PTE.largePage, PTE.cacheBit2]
    cases m <;> split <;> simp [PTE.present, PTE.user, PTE.write, PTE.noExecute, PTE.global, PTE.cacheBit0, PTE.cacheBit1,
      PagingMode.entryBits, Nat.testBit_eq_decide_div_mod_eq]
  have huser : (entryFlags m flags pat level).testBit 2 = decide (flags &&& PageFlag.U ≠ 0) := by
    rw [testBit_entryFlags, PTE.largePage, PTE.cacheBit2]
    cases m <;> split <;> simp [PTE.present, PTE.user, PTE.write, PTE.noExecute, PTE.global, PTE.cacheBit0, PTE.cacheBit1,
      PagingMode.entryBits, Nat.testBit_eq_decide_div_mod_eq]
  rw [rights, hlevel, if_neg Bool.false_ne_true, testBit_leafEntry hpage halign (by decide),
    testBit_leafEntry hpage halign (by decide), hwrite, huser, requested]
  by_cases hm : m = .legacy
  · rw [decide_eq_true hm, Bool.true_or, Bool.true_or]
  · have hexecute : (entryFlags m flags pat level).testBit 63 = decide (flags &&& PageFlag.X = 0) := by
      have hno : PTE.noExecute m = 2 ^ 63 := by
        cases m with
        | legacy => exact absurd rfl hm
        | _ => rfl
      rw [testBit_entryFlags, PTE.largePage, PTE.cacheBit2, hno]
      split <;> simp [PTE.present, PTE.user, PTE.write, PTE.global, PTE.cacheBit0, PTE.cacheBit1,
        Nat.testBit_eq_decide_div_mod_eq]
    rw [decide_eq_false hm, Bool.false_or, Bool.false_or, testBit_leafEntry_63 hpage hm, hexecute]
    simp

/-- The bits of an address come out of an entry again. -/
theorem address_div {n : Nat} (hn : 12 ≤ n) (halign : page % 2 ^ n = 0) (hpage : page < 2 ^ physicalBits m) :
    (raw &&& Entry.complement m (PTE.addressMask m) ||| page) / 2 ^ n % 2 ^ (physicalBits m - n) * 2 ^ n = page := by
  have hbits : physicalBits m ≤ 57 ∧ physicalBits m ≤ m.entryBits := by
    cases m <;> decide
  have hlt : page / 2 ^ n < 2 ^ (physicalBits m - n) := by
    apply Nat.div_lt_of_lt_mul
    by_cases hle : n ≤ physicalBits m
    · rwa [← Nat.pow_add, Nat.add_sub_cancel' hle]
    · exact Nat.lt_of_lt_of_le hpage (Nat.le_trans (Nat.pow_le_pow_right (by decide) (Nat.le_of_not_le hle))
        (Nat.le_mul_of_pos_right _ (Nat.two_pow_pos _)))
  rw [Nat.or_div_two_pow, Nat.or_mod_two_pow, Entry.masked_div hn hbits.1 hbits.2, Nat.zero_or, Nat.mod_eq_of_lt hlt]
  exact Nat.div_mul_cancel (Nat.dvd_of_mod_eq_zero halign)

theorem page_leafEntry (hpage : page < 2 ^ physicalBits m) (halign : page % m.pageSize level = 0)
    (hlevel : m = .legacy → level ≤ 1) : Hardware.page m level (leafEntry m page flags pat level) = page := by
  rw [Hardware.page, leafEntry, setAddress_eq hpage]
  split
  · rename_i h0
    rw [h0, PagingMode.pageSize, PagingMode.offsetBits, Nat.zero_mul, Nat.add_zero] at halign
    exact address_div (by decide) halign hpage
  · split
    · rename_i hm
      subst hm
      obtain rfl : level = 1 := by
        have := hlevel rfl
        omega
      have h22 : (entryFlags .legacy flags pat 1 &&& Entry.complement .legacy (PTE.addressMask .legacy) ||| page) /
          2 ^ 22 % 2 ^ 10 * 2 ^ 22 = page := address_div (n := 22) (by decide) halign hpage
      have h13 : page / 2 ^ 13 % 2 ^ 8 = 0 := by
        change page % 2 ^ 22 = 0 at halign
        omega
      have hmasked : (entryFlags .legacy flags pat 1 &&& Entry.complement .legacy (PTE.addressMask .legacy)) /
          2 ^ 13 % 2 ^ 8 = 0 := Entry.masked_div (n := 13) (k := 21) (by decide) (by decide) (by decide)
      rw [h22, Nat.or_div_two_pow, Nat.or_mod_two_pow, h13, hmasked, Nat.or_zero, Nat.zero_mul, Nat.add_zero]
    · rename_i h0 hm
      have hbits : physicalBits m = 52 := by
        cases m with
        | legacy => exact absurd rfl hm
        | _ => rfl
      rw [← hbits]
      exact address_div (by rw [PagingMode.offsetBits]; omega) halign hpage

end LeafEntry

section SubTableEntry

/-- The rights of a new sub-table: the user bit stands for what is asked of the page. -/
def subTableRights (m : PagingMode) (level flags : Nat) : Rights :=
  if m.legacyPDPT level then Rights.all else ⟨true, flags &&& PageFlag.U ≠ 0, true⟩

/-- Apart from the address there are at most the three lowest bits. -/
theorem subTableEntry_eq (m : PagingMode) (level page flags : Nat) :
    ∃ low < 8, low % 2 = 1 ∧ subTableEntry m level page (subtableFlags flags) = page ||| low ∧
    (m.legacyPDPT level = false → low.testBit 1 = true ∧ low.testBit 2 = decide (flags &&& PageFlag.U ≠ 0)) := by
  rw [subTableEntry, subtableFlags]
  by_cases hu : flags &&& PageFlag.U ≠ 0
  · rw [if_pos hu, decide_eq_true hu]
    split
    · refine ⟨1, by decide, rfl, ?_, fun h => ?_⟩
      · cases m <;> rw [Nat.or_assoc] <;> rfl
      · rw [‹m.legacyPDPT level = true›] at h
        cases h
    · exact ⟨7, by decide, rfl, by rw [Nat.or_assoc]; rfl, fun _ => ⟨rfl, rfl⟩⟩
  · rw [if_neg hu, decide_eq_false hu]
    split
    · refine ⟨1, by decide, rfl, ?_, fun h => ?_⟩
      · cases m <;> rw [Nat.or_assoc] <;> rfl
      · rw [‹m.legacyPDPT level = true›] at h
        cases h
    · exact ⟨3, by decide, rfl, by rw [Nat.or_assoc]; rfl, fun _ => ⟨rfl, rfl⟩⟩

theorem isTable_subTableEntry (halign : page % 2 ^ 12 = 0) :
    IsTable (subTableEntry m level page (subtableFlags flags)) := by
  obtain ⟨low, hlt, hodd, heq, -⟩ := subTableEntry_eq m level page flags
  rw [heq, IsTable, present, Nat.testBit_or, Nat.testBit_or, Entry.testBit_of_aligned halign (by decide),
    Entry.testBit_of_aligned halign (by decide), Bool.false_or, Bool.false_or, Nat.testBit_zero, decide_eq_true hodd,
    Nat.testBit_lt_two_pow (Nat.lt_of_lt_of_le hlt (by decide))]
  exact ⟨rfl, rfl⟩

theorem frame_subTableEntry (hpage : page < 2 ^ physicalBits m) (halign : page % 2 ^ 12 = 0) :
    frame m (subTableEntry m level page (subtableFlags flags)) = page := by
  obtain ⟨low, hlt, -, heq, -⟩ := subTableEntry_eq m level page flags
  have hdiv : page / 2 ^ 12 < 2 ^ (physicalBits m - 12) := by
    cases m <;> exact Nat.div_lt_of_lt_mul hpage
  rw [heq, frame, Nat.or_div_two_pow, Nat.div_eq_of_lt (Nat.lt_trans hlt (by decide)), Nat.or_zero, Nat.mod_eq_of_lt hdiv]
  exact Nat.div_mul_cancel (Nat.dvd_of_mod_eq_zero halign)

theorem rights_subTableEntry (hpage : page < 2 ^ physicalBits m) (halign : page % 2 ^ 12 = 0) :
    rights m level (subTableEntry m level page (subtableFlags flags)) = subTableRights m level flags := by
  obtain ⟨low, hlt, -, heq, hlow⟩ := subTableEntry_eq m level page flags
  rw [rights, subTableRights]
  split
  · rfl
  · obtain ⟨h1, h2⟩ := hlow (Bool.eq_false_of_not_eq_true ‹_›)
    have h63 : (m = .legacy || !(page ||| low).testBit 63) = true := by
      by_cases hm : m = .legacy
      · rw [decide_eq_true hm, Bool.true_or]
      · have hlt52 : page < 2 ^ 63 := Nat.lt_of_lt_of_le hpage (by cases m <;> decide)
        rw [Nat.testBit_or, Nat.testBit_lt_two_pow hlt52, Nat.testBit_lt_two_pow (Nat.lt_of_lt_of_le hlt (by decide)),
          Bool.or_false, Bool.not_false, Bool.or_true]
    rw [heq, h63, Nat.testBit_or, Nat.testBit_or, Entry.testBit_of_aligned halign (by decide),
      Entry.testBit_of_aligned halign (by decide), h1, h2, Bool.false_or, Bool.false_or]

/-- A new sub-table takes nothing from what is asked. -/
theorem subTableRights_inter : (subTableRights m level flags).inter (requested m flags) = requested m flags := by
  rw [subTableRights]
  split
  · exact Rights.all_inter _
  · simp only [Rights.inter, requested, Bool.true_and, Bool.and_self]

end SubTableEntry

end PageTable

end XviOs.Mmu
