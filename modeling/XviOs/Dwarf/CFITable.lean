import XviOs.Dwarf.RegRule
import XviOs.Library.LocatedProgram

namespace XviOs.Dwarf

open Library.LocatedProgram

/-- How a value of the caller is found. -/
inductive Rule
  | undefined
  | sameValue
  | offset (n : BitVec 64)
  | valOffset (n : BitVec 64)
  | register (reg addend : BitVec 64)
  | expression (expr len : BitVec 64)
  | valExpression (expr len : BitVec 64)
  deriving DecidableEq

/-- A row of the table that the instructions describe. -/
structure Row where
  cfa : Rule
  rule : BitVec 64 → Rule

def Row.setRule (row : Row) (reg : BitVec 64) (rule : Rule) : Row :=
  { row with rule := Function.update row.rule reg rule }

@[simp] theorem Row.setRule_rule (row : Row) (reg : BitVec 64) (rule : Rule) :
    (row.setRule reg rule).rule = Function.update row.rule reg rule := rfl

/-- The sixteen registers from 16 on are saved at the CFA. -/
def Row.saveWindow (row : Row) : Row where
  cfa := row.cfa
  rule r := if 16 ≤ r ∧ r < 32 then .offset ((r - 16) * sizeofPointer) else row.rule r

/-- The call frame instructions, with the offsets factored. -/
inductive Instruction
  | advanceLoc (delta : BitVec 64)
  | setLoc (loc : BitVec 64)
  | define (reg : BitVec 64) (rule : Rule)
  | restore (reg : BitVec 64)
  | rememberState
  | restoreState
  | defCfa (rule : Rule)
  | defCfaRegister (reg : BitVec 64)
  | defCfaOffset (offset : BitVec 64)
  | windowSave
  | argsSize (size : BitVec 64)
  | nop

namespace Instruction

def next : Instruction → BitVec 64 → BitVec 64
  | advanceLoc delta, loc => loc + delta
  | setLoc loc, _ => loc
  | _, loc => loc

/-- The change of the current row. It has no meaning to restore a rule before there are initial ones, or to change a
part of a CFA rule that is not made of a register and an offset. -/
def effect (initial : Option Row) : Instruction → Row → Option Row
  | define reg rule, row => some (row.setRule reg rule)
  | restore reg, row => initial.map fun i => row.setRule reg (i.rule reg)
  | defCfa rule, row => some { row with cfa := rule }
  | defCfaRegister reg, ⟨.register _ offset, rule⟩ => some ⟨.register reg offset, rule⟩
  | defCfaRegister _, _ => none
  | defCfaOffset offset, ⟨.register reg _, rule⟩ => some ⟨.register reg offset, rule⟩
  | defCfaOffset _, _ => none
  | windowSave, row => some row.saveWindow
  | _, row => some row

/-- The registers that the instruction gives a rule are columns of the table. The size of the arguments is none. -/
def Supported (column : BitVec 64 → Prop) : Instruction → Prop
  | define reg _ => column reg
  | restore reg => column reg
  | windowSave => ∀ r, 16 ≤ r → r < 32 → column r
  | argsSize _ => False
  | _ => True

end Instruction

/-- The current row and those that are remembered. -/
structure Rows where
  row : Row
  stack : List Row

/-- No more than `capacity` rows can be remembered. -/
def Instruction.exec (initial : Option Row) (capacity : Nat) : Instruction → Rows → Option Rows
  | .rememberState, s => if s.stack.length < capacity then some ⟨s.row, s.row :: s.stack⟩ else none
  | .restoreState, ⟨_, row :: stack⟩ => some ⟨row, stack⟩
  | .restoreState, ⟨_, []⟩ => none
  | i, s => (i.effect initial s.row).map fun row => ⟨row, s.stack⟩

/-- The abstract machine. -/
def machine (initial : Option Row) (capacity : Nat) : Machine Instruction (BitVec 64) Rows where
  next := Instruction.next
  exec := Instruction.exec initial capacity
  exec_of_next_ne := by
    intro i loc s h
    cases i with
    | advanceLoc | setLoc => rfl
    | _ => exact absurd rfl h

def DwarfCfiOp.instruction (op : DwarfCfiOp) : Instruction :=
  match op.opcode with
  | .advanceLoc | .advanceLoc1 | .advanceLoc2 | .advanceLoc4 | .mipsAdvanceLoc8 => .advanceLoc op.op1
  | .setLoc => .setLoc op.op1
  | .offset | .offsetExtended | .offsetExtendedSf | .gnuNegativeOffsetExtended => .define op.op1 (.offset op.op2)
  | .restore | .restoreExtended => .restore op.op1
  | .nop => .nop
  | .undefined => .define op.op1 .undefined
  | .sameValue => .define op.op1 .sameValue
  | .reg => .define op.op1 (.register op.op2 0)
  | .rememberState => .rememberState
  | .restoreState => .restoreState
  | .defCfa | .defCfaSf => .defCfa (.register op.op1 op.op2)
  | .defCfaRegister => .defCfaRegister op.op1
  | .defCfaOffset | .defCfaOffsetSf => .defCfaOffset op.op1
  | .defCfaExpression => .defCfa (.valExpression op.op1 op.op2)
  | .expression => .define op.op1 (.expression op.op2 op.op3)
  | .valExpression => .define op.op1 (.valExpression op.op2 op.op3)
  | .valOffset | .valOffsetSf => .define op.op1 (.valOffset op.op2)
  | .gnuWindowSave => .windowSave
  | .gnuArgsSize => .argsSize op.op1

/-- The rules of the architecture's calling convention. -/
def FrameTraits.defaultRow (traits : FrameTraits) : Row where
  cfa := .undefined
  rule reg :=
    if reg.toNat = traits.stackPointer then .valOffset (-traits.stackPointerOffset)
    else if reg.toNat ∈ traits.calleeSaveRegisters then .sameValue
    else .undefined

/-- The rules that the CIE makes. It remembers none. -/
def initialRow (traits : FrameTraits) (cie : List Instruction) : Option Row :=
  ((machine none 0).run cie ⟨traits.defaultRow, []⟩).map (·.row)

/-- The instructions that are processed for `target`: those in front of the first that goes to a location behind it. -/
def reached (fde : List Instruction) (start target : BitVec 64) : List Instruction :=
  (machine none 0).processed (fun loc => decide (loc ≤ target)) fde start

/-- The row in effect at `target`, with the rows that are remembered there. -/
def rowsAt (traits : FrameTraits) (cie fde : List Instruction) (start target : BitVec 64) : Option Rows :=
  (initialRow traits cie).bind fun initial =>
    (machine (some initial) maxPushes).run (reached fde start target) ⟨initial, []⟩

/-- The instructions that are processed for the location in front of `pc`. There is none in front of the first. -/
def reachedBefore (fde : List Instruction) (start pc : BitVec 64) : List Instruction :=
  if pc = start then [] else reached fde start (pc - 1)

/-- The row in effect in front of `pc`: at a return address, the one of the call. -/
def rowsBefore (traits : FrameTraits) (cie fde : List Instruction) (start pc : BitVec 64) : Option Rows :=
  (initialRow traits cie).bind fun initial =>
    (machine (some initial) maxPushes).run (reachedBefore fde start pc) ⟨initial, []⟩

theorem processed_machine (initial : Option Row) (capacity : Nat) (within : BitVec 64 → Bool)
    (prog : List Instruction) (loc : BitVec 64) :
    (machine initial capacity).processed within prog loc = (machine none 0).processed within prog loc := by
  apply Machine.processed_eq
  intro i l
  rfl

/-- The target is in the interval from the location that is reached to the next one. -/
theorem reached_interval {start target : BitVec 64} (h : start ≤ target) (fde : List Instruction) :
    (machine none 0).location (reached fde start target) start ≤ target ∧
      (reached fde start target = fde ∨ ∃ i rest, fde = reached fde start target ++ i :: rest ∧
        target < i.next ((machine none 0).location (reached fde start target) start)) := by
  have hstart : decide (start ≤ target) = true := decide_eq_true h
  obtain ⟨hin, hout⟩ := Machine.processed_interval (M := machine none 0) (fun loc => decide (loc ≤ target)) hstart fde
  refine ⟨of_decide_eq_true hin, ?_⟩
  obtain hall | ⟨i, rest, hfde, hleave⟩ := hout
  · exact Or.inl hall
  · exact Or.inr ⟨i, rest, hfde, BitVec.not_le.mp (of_decide_eq_false hleave)⟩

end XviOs.Dwarf
