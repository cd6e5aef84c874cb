import XviOs.Library.Assignment
import XviOs.Dwarf.RegRule

namespace XviOs.Dwarf

open Library.Assignment

/-- `kUnwindRegisterCount` and the number of `return_addr` of x86-64. -/
abbrev kUnwindRegisterCount : Nat := 16
abbrev returnAddr : Nat := 16

/-- The registers that are kept, in one array with the CFA and the return address. -/
@[ext] structure RegStorage where
  gp : Fin (kUnwindRegisterCount + 2) → BitVec 64

namespace RegStorage

variable (frame : RegStorage)

def getCFA : BitVec 64 := frame.gp 0

def setCFA (cfa : BitVec 64) : RegStorage := ⟨Function.update frame.gp 0 cfa⟩

/-- The slot of the return address has its number, where the slot of a register has its number plus one. -/
def returnSlot : Fin (kUnwindRegisterCount + 2) := Fin.ofNat (kUnwindRegisterCount + 2) returnAddr

def getReturnAddress : BitVec 64 := frame.gp returnSlot

def setReturnAddress (ra : BitVec 64) : RegStorage := ⟨Function.update frame.gp returnSlot ra⟩

def registerSlot (which : Fin kUnwindRegisterCount) : Fin (kUnwindRegisterCount + 2) := which.castSucc.succ

/-- `behind` is what lies behind the array, where the numbers of other registers lead. -/
def getGPRegister (behind : Nat → BitVec 64) (which : BitVec 8) : BitVec 64 :=
  if h : which.toNat + 1 < kUnwindRegisterCount + 2 then frame.gp ⟨which.toNat + 1, h⟩ else behind (which.toNat + 1)

def setGPRegister (which : Fin kUnwindRegisterCount) (value : BitVec 64) : RegStorage :=
  ⟨Function.update frame.gp (registerSlot which) value⟩

/-- The lambda `set`: the index behind the registers is that of the return address. -/
def set (i : Fin (kUnwindRegisterCount + 1)) (value : BitVec 64) : RegStorage :=
  if h : i.val < kUnwindRegisterCount then frame.setGPRegister ⟨i, h⟩ value else frame.setReturnAddress value

end RegStorage

/-- The number is converted to a byte. -/
def indexToRegister (index : BitVec 64) : BitVec 8 := index.setWidth 8

section UnwindFrame

variable (m : Memory) (behind : Nat → BitVec 64) (frame : RegStorage)

/-- The switch over the rule of one register. All values are those of the old frame. -/
def applyRule (cfa : BitVec 64) (rules : RegRuleRow kUnwindRegisterCount) (output : RegStorage)
    (i : Fin (kUnwindRegisterCount + 1)) : Option RegStorage :=
  let rule := rules i.succ
  match rule.ruleType with
  | .undefined => some (output.set i 0)
  | .unchanged => some output
  | .cfaRelative => some (output.set i (m.word (cfa + rule.word1) 8))
  | .cfaRelativeValue => some (output.set i (cfa + rule.word1))
  | .otherReg => some (output.set i (frame.getGPRegister behind (indexToRegister rule.word1) + rule.word2))
  | .expression | .expressionValue => none

def applyCFARule (rule : RegRule) : Option (BitVec 64) :=
  match rule.ruleType with
  | .otherReg => some (frame.getGPRegister behind (indexToRegister rule.word1) + rule.word2)
  | _ => none

/-- `parseRules` is `ParseCFIRules` for the FDE. The frame is replaced when all of the rules were applied. -/
def unwindFrame (parseRules : BitVec 64 → Option (RegRuleRow kUnwindRegisterCount)) : Bool × RegStorage :=
  let unwound := do
    let rules ← parseRules frame.getReturnAddress
    let cfa ← applyCFARule behind frame (rules 0)
    (List.finRange (kUnwindRegisterCount + 1)).foldlM (applyRule m behind frame cfa rules) (frame.setCFA cfa)
  match unwound with
  | some output => (true, output)
  | none => (false, frame)

end UnwindFrame

/-- `unwindFrame` with the rules that the instructions of the FDE give. -/
def unwindFrameX86_64 (m : Memory) (behind : Nat → BitVec 64) (fde : DwarfFDE) (frame : RegStorage) :
    Bool × RegStorage :=
  unwindFrame m behind frame (parseCFIRules m frameTraitsX86_64 fde)

section Meaning

variable (m : Memory) (frame : RegStorage)

/-- The value of a register by its number, for the registers that a frame has. -/
def RegStorage.register (reg : BitVec 64) : Option (BitVec 64) :=
  if h : reg.toNat < kUnwindRegisterCount then some (frame.gp (RegStorage.registerSlot ⟨reg.toNat, h⟩))
  else if reg.toNat = returnAddr then some frame.getReturnAddress
  else none

def RegRule.registerValue (rule : RegRule) : Option (BitVec 64) :=
  (frame.register rule.word1).map fun value => value + rule.word2

/-- The value of the CFA. No other rule for it is supported. -/
def RegRule.cfaValue (rule : RegRule) : Option (BitVec 64) :=
  match rule.ruleType with
  | .otherReg => rule.registerValue frame
  | _ => none

/-- The value that a rule defines for a register which holds `old`. -/
def RegRule.value (cfa old : BitVec 64) (rule : RegRule) : Option (BitVec 64) :=
  match rule.ruleType with
  | .undefined => some 0
  | .unchanged => some old
  | .cfaRelative => some (m.word (cfa + rule.word1) 8)
  | .cfaRelativeValue => some (cfa + rule.word1)
  | .otherReg => rule.registerValue frame
  | .expression | .expressionValue => none

/-- The registers of the caller, as the rules define them from the frame of the callee. -/
structure Restores (rules : RegRuleRow kUnwindRegisterCount) (output : RegStorage) : Prop where
  cfa : (rules 0).cfaValue frame = some output.getCFA
  register : ∀ i : Fin kUnwindRegisterCount,
    (rules (RegStorage.registerSlot i)).value m frame output.getCFA (frame.gp (RegStorage.registerSlot i)) =
      some (output.gp (RegStorage.registerSlot i))
  returnAddress : (rules (Fin.last _)).value m frame output.getCFA frame.getReturnAddress =
    some output.getReturnAddress

/-- What a call leaves: the registers of the caller when it succeeds, and the old frame when it fails. -/
inductive Unwinds (rules : RegRuleRow kUnwindRegisterCount) : Bool × RegStorage → Prop
  | success {output : RegStorage} (restores : Restores m frame rules output) : Unwinds rules (true, output)
  | failure : Unwinds rules (false, frame)

end Meaning

section Loop

variable (m : Memory) (behind : Nat → BitVec 64) (frame : RegStorage) (cfa : BitVec 64)

def RegRule.IsExpression (rule : RegRule) : Prop :=
  rule.ruleType = .expression ∨ rule.ruleType = .expressionValue

/-- What the loop writes for a rule, if anything. -/
def RegRule.written (rule : RegRule) : Option (BitVec 64) :=
  match rule.ruleType with
  | .undefined => some 0
  | .cfaRelative => some (m.word (cfa + rule.word1) 8)
  | .cfaRelativeValue => some (cfa + rule.word1)
  | .otherReg => some (frame.getGPRegister behind (indexToRegister rule.word1) + rule.word2)
  | .unchanged | .expression | .expressionValue => none

/-- The slot that the rule with an index is for. -/
def RegStorage.place (i : Fin (kUnwindRegisterCount + 1)) : Fin (kUnwindRegisterCount + 2) :=
  if h : i.val < kUnwindRegisterCount then RegStorage.registerSlot ⟨i, h⟩ else RegStorage.returnSlot

/-- The rule reads a register that the frame has, from the slot where that register is. The slot behind the registers
is read for the return address, which is not there. -/
def RegRule.Named (rule : RegRule) : Prop :=
  rule.ruleType = .otherReg → rule.word1.toNat < kUnwindRegisterCount ∨
    (rule.word1.toNat = returnAddr ∧ frame.gp (Fin.last _) = frame.getReturnAddress)

variable {m behind frame cfa}

theorem RegStorage.set_eq (output : RegStorage) (i : Fin (kUnwindRegisterCount + 1)) (value : BitVec 64) :
    output.set i value = ⟨assign (RegStorage.place i) (some value) output.gp⟩ := by
  rw [RegStorage.set, RegStorage.place]
  split
  · rfl
  · rfl

theorem applyRule_eq {rules : RegRuleRow kUnwindRegisterCount} (output : RegStorage)
    {i : Fin (kUnwindRegisterCount + 1)} (h : ¬ (rules i.succ).IsExpression) :
    applyRule m behind frame cfa rules output i =
      some ⟨assign (RegStorage.place i) ((rules i.succ).written m behind frame cfa) output.gp⟩ := by
  simp only [applyRule, RegRule.written, RegStorage.set_eq]
  cases hrule : (rules i.succ).ruleType with
  | expression => exact absurd (Or.inl hrule) h
  | expressionValue => exact absurd (Or.inr hrule) h
  | unchanged | undefined | cfaRelative | cfaRelativeValue | otherReg => rfl

/-- The loop is a sequence of assignments. -/
theorem foldlM_applyRule {rules : RegRuleRow kUnwindRegisterCount} (h : ∀ slot, ¬ (rules slot).IsExpression)
    (l : List (Fin (kUnwindRegisterCount + 1))) (output : RegStorage) :
    l.foldlM (applyRule m behind frame cfa rules) output =
      some ⟨assignAll RegStorage.place (fun i => (rules i.succ).written m behind frame cfa) l output.gp⟩ := by
  induction l generalizing output with
  | nil => rfl
  | cons i l ih =>
    rw [List.foldlM_cons, applyRule_eq output (h i.succ)]
    exact ih _

variable (behind) in
theorem register_eq_iff (reg : BitVec 64) :
    frame.register reg = some (frame.getGPRegister behind (indexToRegister reg)) ↔
      reg.toNat < kUnwindRegisterCount ∨
        (reg.toNat = returnAddr ∧ frame.gp (Fin.last _) = frame.getReturnAddress) := by
  have hmod : (indexToRegister reg).toNat = reg.toNat % 2 ^ 8 := BitVec.toNat_setWidth 8 reg
  rw [RegStorage.register]
  by_cases hlt : reg.toNat < kUnwindRegisterCount
  · rw [dif_pos hlt]
    rw [kUnwindRegisterCount] at hlt
    have hsame : (indexToRegister reg).toNat = reg.toNat := by omega
    refine iff_of_true ?_ (Or.inl hlt)
    rw [RegStorage.getGPRegister, dif_pos (by rw [hsame, kUnwindRegisterCount]; omega)]
    exact congrArg (fun slot => some (frame.gp slot)) (Fin.ext (congrArg Nat.succ hsame.symm))
  · rw [dif_neg hlt]
    by_cases hra : reg.toNat = returnAddr
    · rw [if_pos hra]
      rw [returnAddr] at hra
      have hsame : (indexToRegister reg).toNat = 16 := by omega
      have hget : frame.getGPRegister behind (indexToRegister reg) = frame.gp (Fin.last _) := by
        rw [RegStorage.getGPRegister, dif_pos (by rw [hsame, kUnwindRegisterCount]; omega)]
        exact congrArg frame.gp (Fin.ext (congrArg Nat.succ hsame))
      rw [hget, Option.some_inj]
      constructor
      · intro h
        exact Or.inr ⟨hra, h.symm⟩
      · rintro (h | ⟨-, h⟩)
        · exact absurd h hlt
        · exact h.symm
    · rw [if_neg hra]
      refine iff_of_false (by simp) ?_
      rintro (h | ⟨h, -⟩)
      · exact hlt h
      · exact hra h

variable (behind) in
theorem registerValue_eq_iff {rule : RegRule} (h : rule.ruleType = .otherReg) :
    rule.registerValue frame = some (frame.getGPRegister behind (indexToRegister rule.word1) + rule.word2) ↔
      rule.Named frame := by
  simp only [RegRule.Named, h, forall_const, ← register_eq_iff behind, RegRule.registerValue]
  cases frame.register rule.word1 with
  | none => simp
  | some value => simp

/-- A rule defines what the loop writes for it, unless it reads another register from a slot that is not its own. -/
theorem value_eq_written_iff {rule : RegRule} (h : ¬ rule.IsExpression) (old : BitVec 64) :
    rule.value m frame cfa old = some ((rule.written m behind frame cfa).getD old) ↔ rule.Named frame := by
  cases hrule : rule.ruleType with
  | expression => exact absurd (Or.inl hrule) h
  | expressionValue => exact absurd (Or.inr hrule) h
  | unchanged | undefined | cfaRelative | cfaRelativeValue =>
    simp [RegRule.value, RegRule.written, RegRule.Named, hrule]
  | otherReg =>
    rw [← registerValue_eq_iff behind hrule]
    simp only [RegRule.value, RegRule.written, hrule, Option.getD_some]

theorem unchanged_of_written {rule : RegRule} (h : ¬ rule.IsExpression)
    (hwritten : rule.written m behind frame cfa = none) : rule.ruleType = .unchanged := by
  cases hrule : rule.ruleType with
  | unchanged => rfl
  | expression => exact absurd (Or.inl hrule) h
  | expressionValue => exact absurd (Or.inr hrule) h
  | undefined | cfaRelative | cfaRelativeValue | otherReg =>
    rw [RegRule.written, hrule] at hwritten
    cases hwritten

theorem named_of_value {rule : RegRule} {old d : BitVec 64}
    (hvalue : rule.value m frame cfa old = some ((rule.written m behind frame cfa).getD d)) : rule.Named frame := by
  by_cases hrule : rule.ruleType = .otherReg
  · rw [← registerValue_eq_iff behind hrule]
    simpa only [RegRule.value, RegRule.written, hrule, Option.getD_some] using hvalue
  · exact fun h => absurd h hrule

/-- The slots after the loop. -/
def unwound (m : Memory) (behind : Nat → BitVec 64) (frame : RegStorage) (cfa : BitVec 64)
    (rules : RegRuleRow kUnwindRegisterCount) : Fin (kUnwindRegisterCount + 2) → BitVec 64 :=
  assignAll RegStorage.place (fun i => (rules i.succ).written m behind frame cfa)
    (List.finRange (kUnwindRegisterCount + 1)) (frame.setCFA cfa).gp

theorem place_val (i : Fin (kUnwindRegisterCount + 1)) :
    (RegStorage.place i).val = if i.val < 16 then i.val + 1 else 16 := by
  rw [RegStorage.place]
  split
  · rfl
  · rfl

theorem place_ne_zero (i : Fin (kUnwindRegisterCount + 1)) : 0 ≠ RegStorage.place i := by
  intro h
  have hval := (congrArg Fin.val h).trans (place_val i)
  split at hval
  · exact absurd hval (Nat.succ_ne_zero _).symm
  · exact absurd hval (by decide)

variable {rules : RegRuleRow kUnwindRegisterCount}

theorem unwound_getCFA : RegStorage.getCFA ⟨unwound m behind frame cfa rules⟩ = cfa := by
  rw [RegStorage.getCFA, unwound]
  refine (assignAll_frame fun i _ => place_ne_zero i).trans ?_
  exact Function.update_self 0 cfa frame.gp

theorem setCFA_place (i : Fin (kUnwindRegisterCount + 1)) :
    (frame.setCFA cfa).gp (RegStorage.place i) = frame.gp (RegStorage.place i) :=
  Function.update_of_ne (place_ne_zero i).symm _ _

/-- All registers but `r15` have a slot of their own. -/
theorem unwound_register {i : Fin kUnwindRegisterCount} (hi : i ≠ 15) :
    unwound m behind frame cfa rules (RegStorage.registerSlot i) =
      ((rules (RegStorage.registerSlot i)).written m behind frame cfa).getD
        (frame.gp (RegStorage.registerSlot i)) := by
  have hplace : RegStorage.registerSlot i = RegStorage.place i.castSucc := by
    rw [RegStorage.place, dif_pos (show i.castSucc.val < kUnwindRegisterCount from i.isLt)]
    rfl
  have hne : i.val ≠ 15 := fun h => hi (Fin.ext h)
  rw [hplace, unwound, assignAll_of_unique (List.mem_finRange _) (List.nodup_finRange _), setCFA_place]
  · rw [← hplace]
    rfl
  · intro j _ hplace
    have hval := congrArg Fin.val hplace
    rw [place_val, place_val, Fin.val_castSucc, if_pos i.isLt] at hval
    apply Fin.ext
    rw [Fin.val_castSucc]
    split at hval
    · omega
    · omega

/-- The slot of `r15` is that of the return address, which is written last. -/
theorem unwound_returnSlot :
    unwound m behind frame cfa rules RegStorage.returnSlot =
      ((rules (Fin.last _)).written m behind frame cfa).getD
        (((rules (RegStorage.registerSlot 15)).written m behind frame cfa).getD frame.getReturnAddress) := by
  have hunique : assignAll RegStorage.place (fun i => (rules i.succ).written m behind frame cfa)
      ((List.finRange kUnwindRegisterCount).map Fin.castSucc) (frame.setCFA cfa).gp (RegStorage.place 15) =
        ((rules (RegStorage.registerSlot 15)).written m behind frame cfa).getD frame.getReturnAddress := by
    rw [assignAll_of_unique, setCFA_place]
    · rfl
    · exact List.mem_map.mpr ⟨15, List.mem_finRange _, rfl⟩
    · exact (List.nodup_finRange _).map (Fin.castSucc_injective _)
    · intro j hj hplace
      obtain ⟨i, -, rfl⟩ := List.mem_map.mp hj
      have hval := congrArg Fin.val hplace
      rw [place_val, place_val, Fin.val_castSucc, if_pos i.isLt] at hval
      exact Fin.ext (Nat.succ.inj hval)
  rw [unwound, List.finRange_succ_last, assignAll_concat]
  exact (assign_self _).trans (congrArg (Option.getD _) hunique)

end Loop

section Correct

variable {m : Memory} {behind : Nat → BitVec 64} {frame : RegStorage} {cfa : BitVec 64}
  {rules : RegRuleRow kUnwindRegisterCount} {parseRules : BitVec 64 → Option (RegRuleRow kUnwindRegisterCount)}

theorem unwindFrame_of_otherReg (hrules : parseRules frame.getReturnAddress = some rules)
    (hexpr : ∀ slot, ¬ (rules slot).IsExpression) (hcfa : (rules 0).ruleType = .otherReg) :
    unwindFrame m behind frame parseRules = (true, ⟨unwound m behind frame
      (frame.getGPRegister behind (indexToRegister (rules 0).word1) + (rules 0).word2) rules⟩) := by
  have happly : applyCFARule behind frame (rules 0) =
      some (frame.getGPRegister behind (indexToRegister (rules 0).word1) + (rules 0).word2) := by
    rw [applyCFARule, hcfa]
  rw [unwindFrame, hrules, Option.bind_eq_bind, Option.bind_some, happly, Option.bind_eq_bind, Option.bind_some,
    foldlM_applyRule hexpr]
  rfl

/-- No other rule gives a value to the CFA. -/
theorem unwindFrame_of_not_otherReg (hrules : parseRules frame.getReturnAddress = some rules)
    (hcfa : (rules 0).ruleType ≠ .otherReg) : unwindFrame m behind frame parseRules = (false, frame) := by
  have happly : applyCFARule behind frame (rules 0) = none := by
    rw [applyCFARule]
    split
    · exact absurd ‹_› hcfa
    · rfl
  rw [unwindFrame, hrules, Option.bind_eq_bind, Option.bind_some, happly]
  rfl

theorem unwinds_iff_restores {result : Bool × RegStorage} (h : result.1 = true) :
    Unwinds m frame rules result ↔ Restores m frame rules result.2 := by
  constructor
  · rintro (hrestores | _)
    · exact hrestores
    · cases h
  · intro hrestores
    obtain ⟨ok, output⟩ := result
    obtain rfl : ok = true := h
    exact .success hrestores

/-- The rules with which the slot that `r15` shares with the return address does not matter: both define the same
value. -/
structure Compatible (m : Memory) (frame : RegStorage) (rules : RegRuleRow kUnwindRegisterCount) (cfa : BitVec 64) :
    Prop where
  named : ∀ slot, slot ≠ RegStorage.registerSlot 15 → (rules slot).Named frame
  kept : (rules (Fin.last _)).ruleType = .unchanged → (rules (RegStorage.registerSlot 15)).Named frame
  same : (rules (RegStorage.registerSlot 15)).value m frame cfa frame.getReturnAddress =
    (rules (Fin.last _)).value m frame cfa frame.getReturnAddress

theorem registerSlot_cases (slot : Fin (kUnwindRegisterCount + 2)) :
    slot = 0 ∨ slot = Fin.last _ ∨ ∃ i, slot = RegStorage.registerSlot i := by
  induction slot using Fin.cases with
  | zero => exact Or.inl rfl
  | succ slot =>
    induction slot using Fin.lastCases with
    | last => exact Or.inr (Or.inl rfl)
    | cast i => exact Or.inr (Or.inr ⟨i, rfl⟩)

theorem compatible_of_restores (hcfa : (rules 0).ruleType = .otherReg)
    (hvalue : (rules 0).cfaValue frame =
      some (frame.getGPRegister behind (indexToRegister (rules 0).word1) + (rules 0).word2))
    (h : Restores m frame rules ⟨unwound m behind frame cfa rules⟩) : Compatible m frame rules cfa := by
  obtain ⟨-, hreg, hra⟩ := h
  rw [unwound_getCFA] at hreg hra
  have h15 : (rules (RegStorage.registerSlot 15)).value m frame cfa frame.getReturnAddress =
      some (unwound m behind frame cfa rules RegStorage.returnSlot) := hreg 15
  change _ = some (unwound m behind frame cfa rules RegStorage.returnSlot) at hra
  refine ⟨?_, ?_, h15.trans hra.symm⟩
  · intro slot hslot
    obtain rfl | rfl | ⟨i, rfl⟩ := registerSlot_cases slot
    · rw [← registerValue_eq_iff behind hcfa, ← hvalue, RegRule.cfaValue, hcfa]
    · rw [unwound_returnSlot] at hra
      exact named_of_value hra
    · have hi : _ = some (unwound m behind frame cfa rules (RegStorage.registerSlot i)) := hreg i
      rw [unwound_register fun heq => hslot (congrArg _ heq)] at hi
      exact named_of_value hi
  · intro hsame
    have hkept : (rules (Fin.last _)).written m behind frame cfa = none := by
      rw [RegRule.written, hsame]
    rw [unwound_returnSlot, hkept, Option.getD_none] at h15
    exact named_of_value h15

theorem restores_of_compatible (hexpr : ∀ slot, ¬ (rules slot).IsExpression)
    (hvalue : (rules 0).cfaValue frame = some cfa) (h : Compatible m frame rules cfa) :
    Restores m frame rules ⟨unwound m behind frame cfa rules⟩ := by
  have hra : (rules (Fin.last _)).value m frame cfa frame.getReturnAddress =
      some (unwound m behind frame cfa rules RegStorage.returnSlot) := by
    have hlast : (rules (Fin.last _)).value m frame cfa frame.getReturnAddress =
        some (((rules (Fin.last _)).written m behind frame cfa).getD frame.getReturnAddress) :=
      (value_eq_written_iff (hexpr (Fin.last _)) _).mpr (h.named _ (by decide))
    rw [unwound_returnSlot]
    cases hwritten : (rules (Fin.last _)).written m behind frame cfa with
    | some value => rw [hlast, hwritten, Option.getD_some, Option.getD_some]
    | none =>
      have hkept := unchanged_of_written (hexpr _) hwritten
      rw [← h.same, Option.getD_none]
      exact (value_eq_written_iff (hexpr _) _).mpr (h.kept hkept)
  refine ⟨?_, ?_, ?_⟩
  · rw [unwound_getCFA]
    exact hvalue
  · intro i
    rw [unwound_getCFA]
    by_cases hi : i = 15
    · subst hi
      exact h.same.trans hra
    · have hslot : RegStorage.registerSlot i ≠ RegStorage.registerSlot 15 := fun heq =>
        hi (Fin.castSucc_injective _ (Fin.succ_injective _ heq))
      change _ = some (unwound m behind frame cfa rules (RegStorage.registerSlot i))
      rw [unwound_register hi]
      exact (value_eq_written_iff (hexpr _) _).mpr (h.named _ hslot)
  · rw [unwound_getCFA]
    exact hra

/-- Rows whose CFA rule is supported restore the caller's registers exactly when the rules of `r15` and of the return
address define one value, and no rule reads the return address or a register that is not kept. -/
theorem unwindFrame_unwinds_iff (hrules : parseRules frame.getReturnAddress = some rules)
    (hexpr : ∀ slot, ¬ (rules slot).IsExpression) :
    Unwinds m frame rules (unwindFrame m behind frame parseRules) ↔
      ((rules 0).ruleType = .otherReg →
        ∃ cfa, (rules 0).cfaValue frame = some cfa ∧ Compatible m frame rules cfa) := by
  by_cases hcfa : (rules 0).ruleType = .otherReg
  · rw [unwindFrame_of_otherReg hrules hexpr hcfa, unwinds_iff_restores rfl]
    constructor
    · intro h _
      have hvalue := h.cfa
      rw [unwound_getCFA] at hvalue
      exact ⟨_, hvalue, compatible_of_restores hcfa hvalue h⟩
    · intro h
      obtain ⟨cfa, hvalue, hcompatible⟩ := h hcfa
      have hsame : (rules 0).cfaValue frame =
          some (frame.getGPRegister behind (indexToRegister (rules 0).word1) + (rules 0).word2) := by
        rw [RegRule.cfaValue, hcfa]
        exact (registerValue_eq_iff behind hcfa).mpr (hcompatible.named 0 (by decide))
      obtain rfl := Option.some.inj (hvalue.symm.trans hsame)
      exact restores_of_compatible hexpr hvalue hcompatible
  · rw [unwindFrame_of_not_otherReg hrules hcfa]
    exact iff_of_true .failure fun h => absurd h hcfa

/-- The row of a function that has pushed nothing: the return address is below the CFA, and `r15` has the rule
`r15Rule`. -/
def callRow (r15Rule : RegRule) : RegRuleRow kUnwindRegisterCount := fun slot =>
  if slot = 0 then .otherRegister 7 8
  else if slot = Fin.last _ then .cfaRelative (-8)
  else if slot = RegStorage.registerSlot 15 then r15Rule
  else .unchanged

theorem callRow_not_expression (r15Rule : RegRule) (h : ¬ r15Rule.IsExpression)
    (slot : Fin (kUnwindRegisterCount + 2)) : ¬ (callRow r15Rule slot).IsExpression := by
  rw [callRow]
  split_ifs
  · simp [RegRule.IsExpression, RegRule.otherRegister]
  · simp [RegRule.IsExpression, RegRule.cfaRelative]
  · exact h
  · simp [RegRule.IsExpression, RegRule.unchanged]

def onesFrame : RegStorage := ⟨fun _ => 1⟩

theorem unwindFrame_unwinds_shared :
    Unwinds (fun _ => 2) onesFrame (callRow (.cfaRelative (-8)))
      (unwindFrame (fun _ => 2) (fun _ => 0) onesFrame fun _ => some (callRow (.cfaRelative (-8)))) := by
  refine (unwindFrame_unwinds_iff rfl (callRow_not_expression _ ?_)).mpr fun _ => ⟨9, rfl, ?_, ?_, rfl⟩
  · simp [RegRule.IsExpression, RegRule.cfaRelative]
  · intro slot _ hrule
    rw [callRow] at hrule ⊢
    split_ifs at hrule ⊢
    · exact Or.inl (by decide)
    all_goals cases hrule
  · intro hrule
    cases hrule

/-- The callee keeps `r15`, and the caller finds its return address there. -/
theorem unwindFrame_r15_lost :
    ¬ Unwinds (fun _ => 2) onesFrame (callRow .unchanged)
      (unwindFrame (fun _ => 2) (fun _ => 0) onesFrame fun _ => some (callRow .unchanged)) := by
  have hexpr := callRow_not_expression .unchanged (by simp [RegRule.IsExpression, RegRule.unchanged])
  rw [unwindFrame_of_otherReg rfl hexpr rfl, unwinds_iff_restores rfl]
  intro h
  have hr15 : some (1 : BitVec 64) = some (unwound (fun _ => 2) (fun _ => 0) onesFrame 9
    (callRow .unchanged) RegStorage.returnSlot) := h.register 15
  rw [unwound_returnSlot] at hr15
  exact absurd (Option.some.inj hr15) (by decide)

end Correct

end XviOs.Dwarf
