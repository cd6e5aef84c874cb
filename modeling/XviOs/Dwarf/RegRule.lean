import XviOs.Dwarf.CFI

namespace XviOs.Dwarf

inductive RuleType
  | undefined | unchanged | cfaRelative | cfaRelativeValue | otherReg | expression | expressionValue
  deriving DecidableEq

/-- The parameters are a union. Its first word is an offset, a register or the address of an expression, its second
one an addend or the length of the expression. -/
structure RegRule where
  ruleType : RuleType := .undefined
  word1 : BitVec 64 := 0
  word2 : BitVec 64 := 0
  deriving DecidableEq

namespace RegRule

def undefined : RegRule := {}

def unchanged : RegRule := { ruleType := .unchanged }

def cfaRelative (offset : BitVec 64) : RegRule := { ruleType := .cfaRelative, word1 := offset }

def cfaRelativeValue (offset : BitVec 64) : RegRule := { ruleType := .cfaRelativeValue, word1 := offset }

def otherRegister (which : BitVec 64) (addend : BitVec 64 := 0) : RegRule :=
  { ruleType := .otherReg, word1 := which, word2 := addend }

def expression (expr len : BitVec 64) : RegRule := { ruleType := .expression, word1 := expr, word2 := len }

def expressionValue (expr len : BitVec 64) : RegRule := { ruleType := .expressionValue, word1 := expr, word2 := len }

end RegRule

/-- What the interpreter takes from the traits of an architecture. The registers are named by their indices. -/
structure FrameTraits where
  unwindRegisterCount : Nat
  calleeSaveRegisters : List Nat
  stackPointer : Nat
  stackPointerOffset : BitVec 64
  calleeSave_lt : ∀ reg ∈ calleeSaveRegisters, reg < unwindRegisterCount
  stackPointer_lt : stackPointer < unwindRegisterCount

/-- The traits of x86-64. -/
def frameTraitsX86_64 : FrameTraits where
  unwindRegisterCount := 16
  calleeSaveRegisters := [3, 6, 11, 12, 13, 14, 15]
  stackPointer := 7
  stackPointerOffset := 0
  calleeSave_lt := by simp
  stackPointer_lt := by simp

/-- A row of rules: the one of the CFA, those of the registers and the one of the return address. -/
abbrev RegRuleRow (width : Nat) := Fin (width + 2) → RegRule

inductive CFIRuleParseResult
  | error | success | push | pop
  deriving DecidableEq

section GetRule

variable {width : Nat} (returnReg : BitVec 64)

/-- The place of a register in a row. There is none for an index that is too large. -/
def regIndex (index : BitVec 64) : Option (Fin (width + 2)) :=
  if h : index.toNat < width + 1 then
    if index = returnReg then some (Fin.last (width + 1)) else some ⟨index.toNat + 1, Nat.succ_lt_succ h⟩
  else none

/-- A register for which there is no space is an error, and its rule goes to the CFA. -/
def setReg (rules : RegRuleRow width) (index : BitVec 64) (rule : RegRule) :
    CFIRuleParseResult × RegRuleRow width :=
  match regIndex returnReg index with
  | some slot => (.success, Function.update rules slot rule)
  | none => (.error, Function.update rules 0 rule)

def cieReg (cieRules : Option (RegRuleRow width)) (index : BitVec 64) : RegRule :=
  match cieRules with
  | none => .undefined
  | some rules => rules ((regIndex returnReg index).getD 0)

def sizeofPointer : BitVec 64 := 8

/-- The registers that the SPARC `save` instruction saves. -/
def windowRegisters : List (BitVec 64) := (List.range' 16 16).map (BitVec.ofNat 64)

def windowSave (rules : RegRuleRow width) : CFIRuleParseResult × RegRuleRow width :=
  windowRegisters.foldl (fun acc r =>
    let (result, rules) := setReg returnReg acc.2 r (.cfaRelative ((r - 16) * sizeofPointer))
    (if acc.1 = .error then .error else result, rules)) (.success, rules)

/-- The switch of `GetRuleFromCFI`, with the new program counter and the new rules. -/
def applyOp (op : DwarfCfiOp) (pc : BitVec 64) (rules : RegRuleRow width) (cieRules : Option (RegRuleRow width)) :
    CFIRuleParseResult × BitVec 64 × RegRuleRow width :=
  let setRule (rule : RegRule) :=
    let (result, rules) := setReg returnReg rules op.op1 rule
    (result, pc, rules)
  let setCfa (rule : RegRule) := (CFIRuleParseResult.success, pc, Function.update rules 0 rule)
  match op.opcode with
  | .advanceLoc | .advanceLoc1 | .advanceLoc2 | .advanceLoc4 | .mipsAdvanceLoc8 => (.success, pc + op.op1, rules)
  | .offset | .offsetExtended | .offsetExtendedSf | .gnuNegativeOffsetExtended => setRule (.cfaRelative op.op2)
  | .restore | .restoreExtended => setRule (cieReg returnReg cieRules op.op1)
  | .nop => (.success, pc, rules)
  | .setLoc => (.success, op.op1, rules)
  | .undefined => setRule .undefined
  | .sameValue => setRule .unchanged
  | .reg => setRule (.otherRegister op.op2)
  | .rememberState => (.push, pc, rules)
  | .restoreState => (.pop, pc, rules)
  | .defCfa | .defCfaSf => setCfa (.otherRegister op.op1 op.op2)
  | .defCfaRegister => setCfa { rules 0 with word1 := op.op1 }
  | .defCfaOffset | .defCfaOffsetSf => setCfa { rules 0 with word2 := op.op1 }
  | .defCfaExpression => setCfa (.expressionValue op.op1 op.op2)
  | .expression => setRule (.expression op.op2 op.op3)
  | .valExpression => setRule (.expressionValue op.op2 op.op3)
  | .valOffset | .valOffsetSf => setRule (.cfaRelativeValue op.op2)
  | .gnuWindowSave =>
    let (result, rules) := windowSave returnReg rules
    (result, pc, rules)
  | .gnuArgsSize => (.error, pc, rules)

end GetRule

/-- What `GetRuleFromCFI` changes. -/
structure CFICursor (width : Nat) where
  ops : BitVec 64
  len : BitVec 64
  pc : BitVec 64
  rules : RegRuleRow width

def getRuleFromCFI {width : Nat} (m : Memory) (cie : DwarfCIE) (s : CFICursor width)
    (cieRules : Option (RegRuleRow width)) : CFIRuleParseResult × CFICursor width :=
  match cfiDecodeOne m cie s.ops s.len with
  | none => (.error, s)
  | some op =>
    let (result, pc, rules) := applyOp cie.getReturnRegister op s.pc s.rules cieRules
    (result, ⟨s.ops + op.rawLength, s.len - op.rawLength, pc, rules⟩)

/-- The place of the register with this index among the rules. -/
def registerSlot (width index : Nat) : Fin (width + 2) := Fin.ofNat (width + 2) (index + 1)

/-- The rules that hold unless the CIE says otherwise. -/
def defaultRules (traits : FrameTraits) : RegRuleRow traits.unwindRegisterCount :=
  Function.update
    (traits.calleeSaveRegisters.foldl
      (fun rules reg => Function.update rules (registerSlot traits.unwindRegisterCount reg) RegRule.unchanged)
      fun _ => RegRule.undefined)
    (registerSlot traits.unwindRegisterCount traits.stackPointer)
    (RegRule.cfaRelativeValue (-traits.stackPointerOffset))

def cieLoop {width : Nat} (m : Memory) (cie : DwarfCIE) :
    Nat → BitVec 64 → BitVec 64 → RegRuleRow width → Option (RegRuleRow width)
  | fuel, ops, len, rules =>
    if len = 0 then some rules
    else
      match fuel with
      | 0 => none
      | fuel + 1 =>
        match getRuleFromCFI m cie ⟨ops, len, 0, rules⟩ none with
        | (.success, s) => cieLoop m cie fuel s.ops s.len s.rules
        | _ => none

/-- Only a minimal number of pushes is supported. -/
def maxPushes : Nat := 1

/-- The loop over the instructions of the FDE. The output is the lowest row of the stack. -/
def fdeLoop {width : Nat} (m : Memory) (cie : DwarfCIE) (pc : BitVec 64) (cieRules : RegRuleRow width) :
    Nat → BitVec 64 → BitVec 64 → BitVec 64 → (Nat → RegRuleRow width) → Nat → Option (RegRuleRow width)
  | fuel, ops, len, currentPc, ruleStack, pushDepth =>
    if currentPc < pc ∧ len ≠ 0 then
      match fuel with
      | 0 => none
      | fuel + 1 =>
        match getRuleFromCFI m cie ⟨ops, len, currentPc, ruleStack pushDepth⟩ (some cieRules) with
        | (.error, _) => none
        | (.success, s) =>
          fdeLoop m cie pc cieRules fuel s.ops s.len s.pc (Function.update ruleStack pushDepth s.rules) pushDepth
        | (.push, s) =>
          if maxPushes ≤ pushDepth then none
          else
            fdeLoop m cie pc cieRules fuel s.ops s.len s.pc
              (Function.update (Function.update ruleStack pushDepth s.rules) (pushDepth + 1) s.rules) (pushDepth + 1)
        | (.pop, s) =>
          if pushDepth = 0 then none
          else
            fdeLoop m cie pc cieRules fuel s.ops s.len s.pc (Function.update ruleStack pushDepth s.rules)
              (pushDepth - 1)
    else some (ruleStack 0)

/-- The row of rules for `pc`, when the instructions can be parsed. -/
def parseCFIRules (m : Memory) (traits : FrameTraits) (fde : DwarfFDE) (pc : BitVec 64) :
    Option (RegRuleRow traits.unwindRegisterCount) :=
  if fde.cie.isValid ∧ fde.codeStart ≤ pc ∧ pc ≤ fde.getCodeRangeEnd then
    (cieLoop m fde.cie fde.cie.instructionsLength.toNat fde.cie.instructions fde.cie.instructionsLength
      (defaultRules traits)).bind fun cieRules =>
        fdeLoop m fde.cie pc cieRules fde.instructionsLength.toNat fde.instructions fde.instructionsLength
          fde.codeStart (fun _ => cieRules) 0
  else none

end XviOs.Dwarf
