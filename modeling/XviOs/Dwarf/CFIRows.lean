import XviOs.Dwarf.CFITable

namespace XviOs.Dwarf

open Library.LocatedProgram

def RegRule.meaning (r : RegRule) : Rule :=
  match r.ruleType with
  | .undefined => .undefined
  | .unchanged => .sameValue
  | .cfaRelative => .offset r.word1
  | .cfaRelativeValue => .valOffset r.word1
  | .otherReg => .register r.word1 r.word2
  | .expression => .expression r.word1 r.word2
  | .expressionValue => .valExpression r.word1 r.word2

section Columns

variable {width : Nat} {returnReg reg reg' : BitVec 64} {slot : Fin (width + 2)}

/-- The columns of a table of `width` registers. The return address has the last one. -/
def IsColumn (width : Nat) (returnReg reg : BitVec 64) : Prop := reg.toNat < width ∨ reg = returnReg

/-- The rules are those of the row, each at the place of its register. -/
structure Represents (returnReg : BitVec 64) (rules : RegRuleRow width) (row : Row) : Prop where
  cfa : (rules 0).meaning = row.cfa
  rule : ∀ reg slot, IsColumn width returnReg reg → regIndex returnReg reg = some slot →
    (rules slot).meaning = row.rule reg

theorem regIndex_column (hret : returnReg.toNat ≤ width) (h : IsColumn width returnReg reg) :
    ∃ slot : Fin (width + 2), regIndex returnReg reg = some slot := by
  have hlt : reg.toNat < width + 1 := by
    obtain h | rfl := h
    · omega
    · omega
  rw [regIndex, dif_pos hlt]
  split
  · exact ⟨_, rfl⟩
  · exact ⟨_, rfl⟩

theorem regIndex_cases (h : regIndex returnReg reg = some slot) :
    (reg = returnReg ∧ slot.val = width + 1) ∨ (reg ≠ returnReg ∧ slot.val = reg.toNat + 1) := by
  rw [regIndex] at h
  split at h
  · split at h
    · obtain rfl := Option.some.inj h
      exact Or.inl ⟨‹_›, rfl⟩
    · obtain rfl := Option.some.inj h
      exact Or.inr ⟨‹_›, rfl⟩
  · cases h

theorem regIndex_ne_zero (h : regIndex returnReg reg = some slot) : slot ≠ 0 := by
  intro hzero
  have hval : slot.val = 0 := by rw [hzero]; rfl
  obtain ⟨-, hs⟩ | ⟨-, hs⟩ := regIndex_cases h <;> omega

theorem regIndex_inj (hc : IsColumn width returnReg reg) (hc' : IsColumn width returnReg reg')
    (h : regIndex returnReg reg = some slot) (h' : regIndex returnReg reg' = some slot) : reg = reg' := by
  obtain ⟨heq, hs⟩ | ⟨hne, hs⟩ := regIndex_cases h
  · obtain ⟨heq', -⟩ | ⟨hne', hs'⟩ := regIndex_cases h'
    · rw [heq, heq']
    · obtain hlt | habs := hc'
      · omega
      · exact absurd habs hne'
  · obtain ⟨heq', hs'⟩ | ⟨-, hs'⟩ := regIndex_cases h'
    · obtain hlt | habs := hc
      · omega
      · exact absurd habs hne
    · exact BitVec.eq_of_toNat_eq (by omega)

variable {rules : RegRuleRow width} {row : Row}

theorem setReg_spec (hret : returnReg.toNat ≤ width) (hc : IsColumn width returnReg reg)
    (h : Represents returnReg rules row) (rule : RegRule) :
    (setReg returnReg rules reg rule).1 = .success ∧
      Represents returnReg (setReg returnReg rules reg rule).2 (row.setRule reg rule.meaning) := by
  obtain ⟨slot, hslot⟩ := regIndex_column hret hc
  rw [setReg, hslot]
  refine ⟨rfl, ?_, ?_⟩
  · change (Function.update rules slot rule 0).meaning = row.cfa
    rw [Function.update_of_ne (regIndex_ne_zero hslot).symm]
    exact h.cfa
  · intro reg' slot' hc' hslot'
    change (Function.update rules slot rule slot').meaning = Function.update row.rule reg rule.meaning reg'
    by_cases hs : slot' = slot
    · obtain rfl := hs
      obtain rfl := regIndex_inj hc' hc hslot' hslot
      rw [Function.update_self, Function.update_self]
    · have hr : reg' ≠ reg := by
        rintro rfl
        rw [hslot] at hslot'
        exact hs (Option.some.inj hslot').symm
      rw [Function.update_of_ne hs, Function.update_of_ne hr]
      exact h.rule reg' slot' hc' hslot'

theorem setCfa_spec (h : Represents returnReg rules row) (rule : RegRule) :
    Represents returnReg (Function.update rules 0 rule) { row with cfa := rule.meaning } := by
  constructor
  · rw [Function.update_self]
  · intro reg slot hc hslot
    rw [Function.update_of_ne (regIndex_ne_zero hslot)]
    exact h.rule reg slot hc hslot

/-- The rules of a list of registers, one after another. -/
theorem windowFold_spec (hret : returnReg.toNat ≤ width) (regs : List (BitVec 64)) (f : BitVec 64 → RegRule)
    (hc : ∀ r ∈ regs, IsColumn width returnReg r) (acc : CFIRuleParseResult × RegRuleRow width)
    (hacc : acc.1 = .success) (h : Represents returnReg acc.2 row) :
    (regs.foldl (fun acc r =>
        let (result, rules) := setReg returnReg acc.2 r (f r)
        (if acc.1 = .error then .error else result, rules)) acc).1 = .success ∧
      Represents returnReg (regs.foldl (fun acc r =>
        let (result, rules) := setReg returnReg acc.2 r (f r)
        (if acc.1 = .error then .error else result, rules)) acc).2
        { row with rule := fun r => if r ∈ regs then (f r).meaning else row.rule r } := by
  induction regs generalizing acc row with
  | nil => exact ⟨hacc, h⟩
  | cons r regs ih =>
    obtain ⟨hresult, hrules⟩ := setReg_spec hret (hc r (List.mem_cons_self ..)) h (f r)
    have hstep := ih (fun x hx => hc x (List.mem_cons_of_mem _ hx))
      (if acc.1 = .error then .error else (setReg returnReg acc.2 r (f r)).1,
        (setReg returnReg acc.2 r (f r)).2) (by rw [hacc]; exact hresult) hrules
    refine ⟨hstep.1, ?_⟩
    have hrow : (fun x => if x ∈ r :: regs then (f x).meaning else row.rule x) =
        fun x => if x ∈ regs then (f x).meaning else (row.setRule r (f r).meaning).rule x := by
      funext x
      by_cases hx : x ∈ regs
      · rw [if_pos (List.mem_cons_of_mem _ hx), if_pos hx]
      · rw [if_neg hx]
        by_cases hr : x = r
        · obtain rfl := hr
          rw [if_pos (List.mem_cons_self ..), Row.setRule_rule, Function.update_self]
        · rw [if_neg (by simp [hx, hr]), Row.setRule_rule, Function.update_of_ne hr]
    rw [hrow]
    exact hstep.2

theorem mem_windowRegisters (r : BitVec 64) : r ∈ windowRegisters ↔ 16 ≤ r ∧ r < 32 := by
  constructor
  · intro h
    obtain ⟨n, hn, rfl⟩ := List.mem_map.mp h
    rw [List.mem_range'_1] at hn
    rw [BitVec.le_def, BitVec.lt_def, BitVec.toNat_ofNat, Nat.mod_eq_of_lt (by omega)]
    exact hn
  · rintro ⟨hlow, hhigh⟩
    rw [BitVec.le_def] at hlow
    rw [BitVec.lt_def] at hhigh
    exact List.mem_map.mpr ⟨r.toNat, List.mem_range'_1.mpr ⟨hlow, hhigh⟩, by simp⟩

theorem windowSave_spec (hret : returnReg.toNat ≤ width) (hc : ∀ r, 16 ≤ r → r < 32 → IsColumn width returnReg r)
    (h : Represents returnReg rules row) :
    (windowSave returnReg rules).1 = .success ∧
      Represents returnReg (windowSave returnReg rules).2 row.saveWindow := by
  have hspec := windowFold_spec hret windowRegisters (fun r => .cfaRelative ((r - 16) * sizeofPointer))
    (fun r hr => hc r ((mem_windowRegisters r).mp hr).1 ((mem_windowRegisters r).mp hr).2)
    (.success, rules) rfl h
  simp only [mem_windowRegisters] at hspec
  exact hspec

end Columns

section Step

variable {width : Nat} {returnReg pc : BitVec 64} {rules : RegRuleRow width} {cieRules : Option (RegRuleRow width)}
  {initial : Option Row} {capacity : Nat} {s s' : Rows}

/-- How what the switch gives stands for the step of the abstract machine. A push and a pop are left to the caller. -/
inductive Follows (returnReg : BitVec 64) (capacity : Nat) (rules : RegRuleRow width) (s s' : Rows) :
    CFIRuleParseResult → RegRuleRow width → Prop
  | success {rules' : RegRuleRow width} (hrow : Represents returnReg rules' s'.row) (hstack : s'.stack = s.stack) :
      Follows returnReg capacity rules s s' .success rules'
  | push (hroom : s.stack.length < capacity) (hstep : s' = ⟨s.row, s.row :: s.stack⟩) :
      Follows returnReg capacity rules s s' .push rules
  | pop (hstack : s.stack = s'.row :: s'.stack) : Follows returnReg capacity rules s s' .pop rules

theorem follows_same (h : Represents returnReg rules s.row) : Follows returnReg capacity rules s s .success rules :=
  .success h rfl

theorem follows_setReg (hret : returnReg.toNat ≤ width) {reg : BitVec 64} (hc : IsColumn width returnReg reg)
    (h : Represents returnReg rules s.row) {rule : RegRule}
    (hexec : some (⟨s.row.setRule reg rule.meaning, s.stack⟩ : Rows) = some s') :
    Follows returnReg capacity rules s s' (setReg returnReg rules reg rule).1 (setReg returnReg rules reg rule).2 := by
  obtain rfl := Option.some.inj hexec
  obtain ⟨hresult, hrules⟩ := setReg_spec hret hc h rule
  rw [hresult]
  exact .success hrules rfl

theorem follows_setCfa (h : Represents returnReg rules s.row) {rule : RegRule}
    (hexec : some (⟨{ s.row with cfa := rule.meaning }, s.stack⟩ : Rows) = some s') :
    Follows returnReg capacity rules s s' .success (Function.update rules 0 rule) := by
  obtain rfl := Option.some.inj hexec
  exact .success (setCfa_spec h rule) rfl

theorem follows_restore (hret : returnReg.toNat ≤ width) {reg : BitVec 64} (hc : IsColumn width returnReg reg)
    (h : Represents returnReg rules s.row)
    (hcie : ∀ i, initial = some i → ∃ c, cieRules = some c ∧ Represents returnReg c i)
    (hexec : (Instruction.restore reg).exec initial capacity s = some s') :
    Follows returnReg capacity rules s s' (setReg returnReg rules reg (cieReg returnReg cieRules reg)).1
      (setReg returnReg rules reg (cieReg returnReg cieRules reg)).2 := by
  cases initial with
  | none => cases hexec
  | some i =>
    obtain ⟨c, rfl, hrep⟩ := hcie i rfl
    obtain ⟨slot, hslot⟩ := regIndex_column hret hc
    have hrule : (cieReg returnReg (some c) reg).meaning = i.rule reg := by
      rw [cieReg, hslot]
      exact hrep.rule reg slot hc hslot
    apply follows_setReg hret hc h
    rw [hrule]
    exact hexec

/-- The register of a CFA rule is changed where the rule has one. -/
theorem follows_cfaRegister (h : Represents returnReg rules s.row) {reg : BitVec 64}
    (hexec : (Instruction.defCfaRegister reg).exec initial capacity s = some s') :
    Follows returnReg capacity rules s s' .success (Function.update rules 0 { rules 0 with word1 := reg }) := by
  obtain ⟨⟨cfa, rule⟩, stack⟩ := s
  have hcfa := h.cfa
  cases cfa with
  | register old offset =>
    obtain ⟨htype, hword⟩ : (rules 0).ruleType = .otherReg ∧ (rules 0).word2 = offset := by
      rw [RegRule.meaning] at hcfa
      cases htype : (rules 0).ruleType <;> simp_all
    apply follows_setCfa h
    rw [← hexec, RegRule.meaning, htype, hword]
    rfl
  | _ => cases hexec

theorem follows_cfaOffset (h : Represents returnReg rules s.row) {offset : BitVec 64}
    (hexec : (Instruction.defCfaOffset offset).exec initial capacity s = some s') :
    Follows returnReg capacity rules s s' .success (Function.update rules 0 { rules 0 with word2 := offset }) := by
  obtain ⟨⟨cfa, rule⟩, stack⟩ := s
  have hcfa := h.cfa
  cases cfa with
  | register reg old =>
    obtain ⟨htype, hword⟩ : (rules 0).ruleType = .otherReg ∧ (rules 0).word1 = reg := by
      rw [RegRule.meaning] at hcfa
      cases htype : (rules 0).ruleType <;> simp_all
    apply follows_setCfa h
    rw [← hexec, RegRule.meaning, htype, hword]
    rfl
  | _ => cases hexec

theorem follows_window (hret : returnReg.toNat ≤ width)
    (hc : ∀ r, 16 ≤ r → r < 32 → IsColumn width returnReg r) (h : Represents returnReg rules s.row)
    (hexec : Instruction.windowSave.exec initial capacity s = some s') :
    Follows returnReg capacity rules s s' (windowSave returnReg rules).1 (windowSave returnReg rules).2 := by
  have hstep : some (⟨s.row.saveWindow, s.stack⟩ : Rows) = some s' := hexec
  have hspec := windowSave_spec hret hc h
  rw [hspec.1, ← Option.some.inj hstep]
  exact .success hspec.2 rfl

theorem follows_push (hexec : Instruction.rememberState.exec initial capacity s = some s') :
    Follows returnReg capacity rules s s' .push rules := by
  rw [Instruction.exec] at hexec
  split at hexec
  · exact .push ‹_› (Option.some.inj hexec).symm
  · cases hexec

theorem follows_pop (hexec : Instruction.restoreState.exec initial capacity s = some s') :
    Follows returnReg capacity rules s s' .pop rules := by
  obtain ⟨row, stack⟩ := s
  cases stack with
  | nil => cases hexec
  | cons top stack =>
    obtain rfl := Option.some.inj hexec
    exact .pop rfl

theorem applyOp_window (op1 op2 op3 raw rawLength : BitVec 64) :
    applyOp returnReg ⟨.gnuWindowSave, op1, op2, op3, raw, rawLength⟩ pc rules cieRules =
      ((windowSave returnReg rules).1, pc, (windowSave returnReg rules).2) := by
  simp only [applyOp]

/-- One instruction, by what the switch does for it. -/
theorem applyOp_spec (pc : BitVec 64) (cieRules : Option (RegRuleRow width)) (hret : returnReg.toNat ≤ width)
    (h : Represents returnReg rules s.row)
    (hcie : ∀ i, initial = some i → ∃ c, cieRules = some c ∧ Represents returnReg c i) (op : DwarfCfiOp)
    (hs : op.instruction.Supported (IsColumn width returnReg))
    (hexec : op.instruction.exec initial capacity s = some s') :
    ∃ result rules', applyOp returnReg op pc rules cieRules = (result, op.instruction.next pc, rules') ∧
      Follows returnReg capacity rules s s' result rules' := by
  obtain ⟨opcode, op1, op2, op3, raw, rawLength⟩ := op
  cases opcode with
  | advanceLoc | advanceLoc1 | advanceLoc2 | advanceLoc4 | mipsAdvanceLoc8 | setLoc | nop =>
    obtain rfl := Option.some.inj hexec
    exact ⟨.success, rules, rfl, follows_same h⟩
  | offset | offsetExtended | offsetExtendedSf | gnuNegativeOffsetExtended | undefined | sameValue | reg | expression
  | valExpression | valOffset | valOffsetSf =>
    exact ⟨_, _, rfl, follows_setReg hret hs h hexec⟩
  | restore | restoreExtended => exact ⟨_, _, rfl, follows_restore hret hs h hcie hexec⟩
  | rememberState => exact ⟨.push, rules, rfl, follows_push hexec⟩
  | restoreState => exact ⟨.pop, rules, rfl, follows_pop hexec⟩
  | defCfa | defCfaSf | defCfaExpression => exact ⟨.success, _, rfl, follows_setCfa h hexec⟩
  | defCfaRegister => exact ⟨.success, _, rfl, follows_cfaRegister h hexec⟩
  | defCfaOffset | defCfaOffsetSf => exact ⟨.success, _, rfl, follows_cfaOffset h hexec⟩
  | gnuWindowSave =>
    exact ⟨_, _, applyOp_window op1 op2 op3 raw rawLength, follows_window hret hs h hexec⟩
  | gnuArgsSize => exact hs.elim

end Step

end XviOs.Dwarf
