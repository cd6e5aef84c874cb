import XviOs.Dwarf.CFIRows

namespace XviOs.Dwarf

open Library.LocatedProgram

variable {m : Memory} {cie : DwarfCIE} {width : Nat} {pc : BitVec 64}

theorem cfiDecodeLoop_cases {fuel : Nat} {ptr len : BitVec 64} {ops : List DwarfCfiOp}
    (h : cfiDecodeLoop m cie fuel ptr len = some ops) :
    (len = 0 ∧ ops = []) ∨ (len ≠ 0 ∧ ∃ n op rest, fuel = n + 1 ∧ cfiDecodeOne m cie ptr len = some op ∧
      ops = op :: rest ∧ cfiDecodeLoop m cie n (ptr + op.rawLength) (len - op.rawLength) = some rest) := by
  by_cases hlen : len = 0
  · cases fuel <;> rw [cfiDecodeLoop, if_pos hlen] at h <;> exact Or.inl ⟨hlen, (Option.some.inj h).symm⟩
  · cases fuel with
    | zero =>
      rw [cfiDecodeLoop, if_neg hlen] at h
      cases h
    | succ n =>
      rw [cfiDecodeLoop, if_neg hlen] at h
      cases hop : cfiDecodeOne m cie ptr len with
      | none => simp [hop] at h
      | some op =>
        simp only [hop] at h
        obtain ⟨rest, hrest, rfl⟩ := Option.map_eq_some_iff.mp h
        exact Or.inr ⟨hlen, n, op, rest, rfl, rfl, rfl, hrest⟩

theorem getRuleFromCFI_of_decode {ptr len loc : BitVec 64} {op : DwarfCfiOp}
    (hop : cfiDecodeOne m cie ptr len = some op) {rules rules' : RegRuleRow width} {loc' : BitVec 64}
    {cieRules : Option (RegRuleRow width)} {result : CFIRuleParseResult}
    (happly : applyOp cie.getReturnRegister op loc rules cieRules = (result, loc', rules')) :
    getRuleFromCFI m cie ⟨ptr, len, loc, rules⟩ cieRules =
      (result, ⟨ptr + op.rawLength, len - op.rawLength, loc', rules'⟩) := by
  simp only [getRuleFromCFI, hop, happly]

/-- The instructions of the CIE are all executed, wherever they go. -/
theorem cieLoop_spec (hret : cie.getReturnRegister.toNat ≤ width) {s' : Rows} {fuel : Nat} :
    ∀ {ops : List DwarfCfiOp} {ptr len : BitVec 64} {rules : RegRuleRow width} {row : Row},
      cfiDecodeLoop m cie fuel ptr len = some ops → Represents cie.getReturnRegister rules row →
      (∀ op ∈ ops, op.instruction.Supported (IsColumn width cie.getReturnRegister)) →
      (machine none 0).run (ops.map DwarfCfiOp.instruction) ⟨row, []⟩ = some s' →
      ∃ out, cieLoop m cie fuel ptr len rules = some out ∧ Represents cie.getReturnRegister out s'.row := by
  induction fuel with
  | zero =>
    intro ops ptr len rules row hdecode hrep hs hrun
    obtain ⟨hlen, rfl⟩ | ⟨hlen, n, op, rest, hfuel, -⟩ := cfiDecodeLoop_cases hdecode
    · obtain rfl := Option.some.inj hrun
      exact ⟨rules, by rw [cieLoop, if_pos hlen], hrep⟩
    · cases hfuel
  | succ fuel ih =>
    intro ops ptr len rules row hdecode hrep hs hrun
    obtain ⟨hlen, rfl⟩ | ⟨hlen, n, op, rest, hfuel, hop, rfl, hrest⟩ := cfiDecodeLoop_cases hdecode
    · obtain rfl := Option.some.inj hrun
      exact ⟨rules, by rw [cieLoop, if_pos hlen], hrep⟩
    · obtain rfl := Nat.succ.inj hfuel
      obtain ⟨s1, hexec, hrun⟩ := Option.bind_eq_some_iff.mp hrun
      obtain ⟨result, rules', happly, hfollows⟩ :=
        applyOp_spec 0 none hret hrep (by intro i hi; cases hi) op (hs op (List.mem_cons_self ..)) hexec
      rw [cieLoop, if_neg hlen, getRuleFromCFI_of_decode hop happly]
      obtain ⟨row1, stack1⟩ := s1
      cases hfollows with
      | success hrow hstack =>
        obtain rfl : stack1 = [] := hstack
        exact ih hrest hrow (fun x hx => hs x (List.mem_cons_of_mem _ hx)) hrun
      | push hroom => exact absurd hroom (Nat.not_lt_zero _)
      | pop hstack => cases hstack

/-- The lowest row: what is current when nothing is remembered. -/
def Rows.bottom (s : Rows) : Row := s.stack.getLast?.getD s.row

/-- The array of rules stands for the rows from the current one down. -/
def Stacked (returnReg : BitVec 64) (ruleStack : Nat → RegRuleRow width) : List Row → Prop
  | [] => True
  | row :: below => Represents returnReg (ruleStack below.length) row ∧ Stacked returnReg ruleStack below

section Stacked

variable {returnReg : BitVec 64} {ruleStack : Nat → RegRuleRow width}

theorem Stacked.update {rows : List Row} (h : Stacked returnReg ruleStack rows) {depth : Nat}
    (hdepth : rows.length ≤ depth) (rules : RegRuleRow width) :
    Stacked returnReg (Function.update ruleStack depth rules) rows := by
  induction rows with
  | nil => trivial
  | cons row below ih =>
    rw [List.length_cons] at hdepth
    refine ⟨?_, ih h.2 (by omega)⟩
    rw [Function.update_of_ne (by omega)]
    exact h.1

theorem Stacked.bottom {s : Rows} (h : Stacked returnReg ruleStack (s.row :: s.stack)) :
    Represents returnReg (ruleStack 0) s.bottom := by
  obtain ⟨row, stack⟩ := s
  change Stacked returnReg ruleStack (row :: stack) at h
  rw [Rows.bottom]
  induction stack generalizing row with
  | nil => exact h.1
  | cons top stack ih =>
    have hbelow := ih top h.2
    cases stack with
    | nil => exact hbelow
    | cons next stack =>
      rw [List.getLast?_cons_cons]
      exact hbelow

end Stacked

/-- An instruction that goes to another location names no register. -/
theorem supported_of_next_ne {i : Instruction} (loc : BitVec 64) (h : i.next loc ≠ loc) (column : BitVec 64 → Prop) :
    i.Supported column := by
  cases i with
  | advanceLoc | setLoc => trivial
  | _ => exact absurd rfl h

section Supported

variable {i : Instruction} {prog : List Instruction} {loc : BitVec 64} {column : BitVec 64 → Prop}

theorem processed_cons_next (hnext : i.next loc < pc) :
    (machine none 0).processed (fun l => decide (l < pc)) (i :: prog) loc =
      i :: (machine none 0).processed (fun l => decide (l < pc)) prog (i.next loc) := by
  apply Machine.processed_cons (M := machine none 0)
  exact decide_eq_true hnext

theorem supported_head (hloc : loc < pc)
    (hs : ∀ j ∈ (machine none 0).processed (fun l => decide (l < pc)) (i :: prog) loc, j.Supported column) :
    i.Supported column := by
  by_cases hnext : i.next loc < pc
  · apply hs
    rw [processed_cons_next hnext]
    exact List.mem_cons_self ..
  · apply supported_of_next_ne loc
    intro heq
    rw [heq] at hnext
    exact hnext hloc

theorem supported_tail (hnext : i.next loc < pc)
    (hs : ∀ j ∈ (machine none 0).processed (fun l => decide (l < pc)) (i :: prog) loc, j.Supported column) :
    ∀ j ∈ (machine none 0).processed (fun l => decide (l < pc)) prog (i.next loc), j.Supported column := by
  intro j hj
  apply hs
  rw [processed_cons_next hnext]
  exact List.mem_cons_of_mem _ hj

end Supported

/-- The loop over the instructions of the FDE leaves the lowest row that is there when the location `pc` is met. -/
theorem fdeLoop_spec (hret : cie.getReturnRegister.toNat ≤ width) {cieRules : RegRuleRow width} {initial : Row}
    (hinit : Represents cie.getReturnRegister cieRules initial) {s' : Rows} {fuel : Nat} :
    ∀ {ops : List DwarfCfiOp} {ptr len loc : BitVec 64} (ruleStack : Nat → RegRuleRow width) {s : Rows},
      cfiDecodeLoop m cie fuel ptr len = some ops →
      Stacked cie.getReturnRegister ruleStack (s.row :: s.stack) →
      (loc < pc → ∀ i ∈ (machine none 0).processed (fun l => decide (l < pc)) (ops.map DwarfCfiOp.instruction) loc,
        i.Supported (IsColumn width cie.getReturnRegister)) →
      (machine (some initial) maxPushes).runWhile (fun l => decide (l < pc)) (ops.map DwarfCfiOp.instruction) loc s =
        some s' →
      ∃ out, fdeLoop m cie pc cieRules fuel ptr len loc ruleStack s.stack.length = some out ∧
        Represents cie.getReturnRegister out s'.bottom := by
  induction fuel with
  | zero =>
    intro ops ptr len loc ruleStack s hdecode hstacked hs hrun
    obtain ⟨hlen, rfl⟩ | ⟨hlen, n, op, rest, hfuel, -⟩ := cfiDecodeLoop_cases hdecode
    · obtain rfl := Option.some.inj hrun
      exact ⟨ruleStack 0, by rw [fdeLoop, if_neg (fun h => h.2 hlen)], hstacked.bottom⟩
    · cases hfuel
  | succ fuel ih =>
    intro ops ptr len loc ruleStack s hdecode hstacked hs hrun
    obtain ⟨hlen, rfl⟩ | ⟨hlen, n, op, rest, hfuel, hop, rfl, hrest⟩ := cfiDecodeLoop_cases hdecode
    · obtain rfl := Option.some.inj hrun
      exact ⟨ruleStack 0, by rw [fdeLoop, if_neg (fun h => h.2 hlen)], hstacked.bottom⟩
    · obtain rfl := Nat.succ.inj hfuel
      rw [List.map_cons, Machine.runWhile] at hrun
      by_cases hloc : loc < pc
      · rw [if_pos (decide_eq_true hloc)] at hrun
        obtain ⟨s1, hexec, hrun⟩ := Option.bind_eq_some_iff.mp hrun
        obtain ⟨result, rules', happly, hfollows⟩ :=
          applyOp_spec loc (some cieRules) hret hstacked.1
            (by intro i hi; exact ⟨cieRules, rfl, Option.some.inj hi ▸ hinit⟩) op
            (supported_head hloc (hs hloc)) hexec
        have htail := fun hnext => supported_tail hnext (hs hloc)
        rw [fdeLoop, if_pos ⟨hloc, hlen⟩, getRuleFromCFI_of_decode hop happly]
        cases hfollows with
        | success hrow hstack =>
          have hstacked1 : Stacked cie.getReturnRegister (Function.update ruleStack s.stack.length rules')
              (s1.row :: s1.stack) := by
            rw [Stacked, hstack, Function.update_self]
            exact ⟨hrow, hstacked.2.update le_rfl rules'⟩
          rw [← hstack]
          rw [← hstack] at hstacked1
          exact ih _ hrest hstacked1 htail hrun
        | push hroom hstep =>
          obtain rfl := hstep
          change ∃ out, (if maxPushes ≤ s.stack.length then none else _) = some out ∧ _
          rw [if_neg (by omega)]
          apply ih _ hrest (s := ⟨s.row, s.row :: s.stack⟩) _ htail hrun
          refine ⟨?_, ?_, ?_⟩
          · rw [List.length_cons, Function.update_self]
            exact hstacked.1
          · rw [Function.update_of_ne (by simp), Function.update_self]
            exact hstacked.1
          · exact (hstacked.2.update le_rfl _).update (Nat.le_succ _) _
        | pop hstack =>
          have hlength : s.stack.length = s1.stack.length + 1 := by rw [hstack, List.length_cons]
          change ∃ out, (if s.stack.length = 0 then none else _) = some out ∧ _
          rw [if_neg (by omega), hlength, Nat.add_sub_cancel]
          apply ih _ hrest _ htail hrun
          have hbelow := hstacked.2
          rw [hstack] at hbelow
          exact hbelow.update (by rw [List.length_cons]) _
      · rw [if_neg (by simpa using hloc)] at hrun
        obtain rfl := Option.some.inj hrun
        exact ⟨ruleStack 0, by rw [fdeLoop, if_neg (fun h => hloc h.1)], hstacked.bottom⟩

section Default

variable {traits : FrameTraits} {returnReg : BitVec 64}

/-- The return address is a column, and no rule of the calling convention is about its register. -/
def ReturnColumn (traits : FrameTraits) (returnReg : BitVec 64) : Prop :=
  returnReg.toNat ≤ traits.unwindRegisterCount ∧ returnReg.toNat ∉ traits.calleeSaveRegisters ∧
    returnReg.toNat ≠ traits.stackPointer

theorem val_registerSlot {index : Nat} (h : index < width) : (registerSlot width index).val = index + 1 := by
  rw [registerSlot, Fin.val_ofNat, Nat.mod_eq_of_lt (by omega)]

theorem foldl_unchanged (regs : List Nat) (hregs : ∀ reg ∈ regs, reg < width) (rules : RegRuleRow width)
    (slot : Fin (width + 2)) :
    regs.foldl (fun rules reg => Function.update rules (registerSlot width reg) RegRule.unchanged) rules slot =
      if ∃ reg ∈ regs, reg + 1 = slot.val then RegRule.unchanged else rules slot := by
  induction regs generalizing rules with
  | nil => simp
  | cons reg regs ih =>
    rw [List.foldl_cons, ih (fun r hr => hregs r (List.mem_cons_of_mem _ hr))]
    have hval := val_registerSlot (hregs reg (List.mem_cons_self ..))
    by_cases hhead : reg + 1 = slot.val
    · have hslot : slot = registerSlot width reg := Fin.ext (by omega)
      rw [hslot, Function.update_self, ite_self, if_pos ⟨reg, List.mem_cons_self .., hval.symm⟩]
    · have hslot : slot ≠ registerSlot width reg := by
        rintro rfl
        exact hhead hval.symm
      rw [Function.update_of_ne hslot]
      simp only [List.mem_cons, exists_eq_or_imp, hhead, false_or]

theorem meaning_default (slot : Fin (traits.unwindRegisterCount + 2)) :
    (defaultRules traits slot).meaning =
      if slot.val = traits.stackPointer + 1 then .valOffset (-traits.stackPointerOffset)
      else if ∃ reg ∈ traits.calleeSaveRegisters, reg + 1 = slot.val then .sameValue
      else .undefined := by
  have hval := val_registerSlot traits.stackPointer_lt
  rw [defaultRules]
  by_cases hsp : slot.val = traits.stackPointer + 1
  · have hslot : slot = registerSlot traits.unwindRegisterCount traits.stackPointer := Fin.ext (by omega)
    rw [if_pos hsp, hslot, Function.update_self]
    rfl
  · have hslot : slot ≠ registerSlot traits.unwindRegisterCount traits.stackPointer := by
      rintro rfl
      exact hsp hval
    rw [if_neg hsp, Function.update_of_ne hslot, foldl_unchanged _ traits.calleeSave_lt]
    split
    · rfl
    · rfl

theorem represents_default (hret : ReturnColumn traits returnReg) :
    Represents returnReg (defaultRules traits) traits.defaultRow := by
  constructor
  · rw [meaning_default, if_neg (by simp), if_neg (by simp)]
    rfl
  · intro reg slot hc hslot
    rw [meaning_default]
    change _ = if reg.toNat = traits.stackPointer then _ else _
    obtain ⟨rfl, hs⟩ | ⟨-, hs⟩ := regIndex_cases hslot
    · have hsp := traits.stackPointer_lt
      rw [if_neg (by omega), if_neg, if_neg hret.2.2, if_neg hret.2.1]
      rintro ⟨reg', hmem, heq⟩
      have := traits.calleeSave_lt reg' hmem
      omega
    · rw [hs]
      simp only [Nat.add_right_cancel_iff, exists_eq_right]

end Default

theorem reachedBefore_of_lt {start : BitVec 64} (h : start < pc) (prog : List Instruction) :
    reachedBefore prog start pc = (machine none 0).processed (fun l => decide (l < pc)) prog start := by
  rw [BitVec.lt_def] at h
  have hne : pc ≠ start := by
    rintro rfl
    exact h.false
  have hsub : (pc - 1).toNat = pc.toNat - 1 := by
    rw [BitVec.toNat_sub_of_le (by rw [BitVec.le_def]; exact Nat.one_le_of_lt h)]
    rfl
  rw [reachedBefore, if_neg hne, reached]
  apply Machine.processed_congr
  intro l
  rw [decide_eq_decide, BitVec.lt_def, BitVec.le_def]
  omega

/-- The loop executes what is processed for the location in front of `pc`. -/
theorem runWhile_reachedBefore {start : BitVec 64} (h : start ≤ pc) (initial : Option Row) (capacity : Nat)
    (prog : List Instruction) (s : Rows) :
    (machine initial capacity).runWhile (fun l => decide (l < pc)) prog start s =
      (machine initial capacity).run (reachedBefore prog start pc) s := by
  by_cases hlt : start < pc
  · rw [Machine.runWhile_eq (fun l => decide (l < pc)) (decide_eq_true hlt) prog s, processed_machine,
      reachedBefore_of_lt hlt]
  · have heq : pc = start := BitVec.le_antisymm (BitVec.not_lt.mp hlt) h
    rw [Machine.runWhile_of_not_within (fun l => decide (l < pc)) (decide_eq_false hlt) prog s, reachedBefore,
      if_pos heq]
    rfl

section Parse

variable {traits : FrameTraits} {fde : DwarfFDE} {cieOps fdeOps : List DwarfCfiOp} {s : Rows}

/-- Whatever is remembered in front of `pc`, the lowest row is what is left. -/
theorem parseCFIRules_bottom (hvalid : fde.cie.isValid = true) (hstart : fde.codeStart ≤ pc)
    (hend : pc ≤ fde.getCodeRangeEnd) (hret : ReturnColumn traits fde.cie.getReturnRegister)
    (hcie : cfiDecode m fde.cie fde.cie.instructions fde.cie.instructionsLength = some cieOps)
    (hfde : cfiDecode m fde.cie fde.instructions fde.instructionsLength = some fdeOps)
    (hs : ∀ i ∈ cieOps.map DwarfCfiOp.instruction ++
        reachedBefore (fdeOps.map DwarfCfiOp.instruction) fde.codeStart pc,
      i.Supported (IsColumn traits.unwindRegisterCount fde.cie.getReturnRegister))
    (hrows : rowsBefore traits (cieOps.map DwarfCfiOp.instruction) (fdeOps.map DwarfCfiOp.instruction) fde.codeStart
      pc = some s) :
    ∃ out, parseCFIRules m traits fde pc = some out ∧ Represents fde.cie.getReturnRegister out s.bottom := by
  obtain ⟨initial, hinitial, hrun⟩ := Option.bind_eq_some_iff.mp hrows
  obtain ⟨s0, hrun0, rfl⟩ := Option.map_eq_some_iff.mp hinitial
  obtain ⟨cieRules, hcieLoop, hcieRep⟩ := cieLoop_spec hret.1 hcie (represents_default hret)
    (fun op hop => hs _ (List.mem_append_left _ (List.mem_map_of_mem hop))) hrun0
  rw [← runWhile_reachedBefore hstart] at hrun
  have hsupported : fde.codeStart < pc → ∀ i ∈ (machine none 0).processed (fun l => decide (l < pc))
      (fdeOps.map DwarfCfiOp.instruction) fde.codeStart,
      i.Supported (IsColumn traits.unwindRegisterCount fde.cie.getReturnRegister) := by
    intro hlt i hi
    rw [← reachedBefore_of_lt hlt] at hi
    exact hs i (List.mem_append_right _ hi)
  obtain ⟨out, hloop, hrep⟩ := fdeLoop_spec hret.1 hcieRep (fun _ => cieRules) (s := ⟨s0.row, []⟩) hfde
    ⟨hcieRep, trivial⟩ hsupported hrun
  refine ⟨out, ?_, hrep⟩
  rw [parseCFIRules, if_pos ⟨hvalid, hstart, hend⟩, hcieLoop]
  exact hloop

/-- In front of `pc` no row is remembered: the rules are those in effect there. -/
theorem parseCFIRules_rowsBefore (hvalid : fde.cie.isValid = true) (hstart : fde.codeStart ≤ pc)
    (hend : pc ≤ fde.getCodeRangeEnd) (hret : ReturnColumn traits fde.cie.getReturnRegister)
    (hcie : cfiDecode m fde.cie fde.cie.instructions fde.cie.instructionsLength = some cieOps)
    (hfde : cfiDecode m fde.cie fde.instructions fde.instructionsLength = some fdeOps)
    (hs : ∀ i ∈ cieOps.map DwarfCfiOp.instruction ++
        reachedBefore (fdeOps.map DwarfCfiOp.instruction) fde.codeStart pc,
      i.Supported (IsColumn traits.unwindRegisterCount fde.cie.getReturnRegister))
    (hrows : rowsBefore traits (cieOps.map DwarfCfiOp.instruction) (fdeOps.map DwarfCfiOp.instruction) fde.codeStart
      pc = some s)
    (hdone : s.stack = []) :
    ∃ out, parseCFIRules m traits fde pc = some out ∧ Represents fde.cie.getReturnRegister out s.row := by
  have hbottom : s.bottom = s.row := by rw [Rows.bottom, hdone]; rfl
  rw [← hbottom]
  exact parseCFIRules_bottom hvalid hstart hend hret hcie hfde hs hrows

end Parse

/-- The instructions of a function that pushes a register: the CFA is at offset 8 from the stack pointer, and from
the second byte of the function on at offset 16. -/
def pushProgram : Memory := fun a =>
  ([0x0c, 0x07, 0x08, 0x90, 0x01, 0x41, 0x0e, 0x10] : List (BitVec 8)).getD (a - 0x2000).toNat 0

def pushFde : DwarfFDE where
  cie := ⟨1, -8, 16, 0, 0x2000, 5⟩
  codeStart := 0x1000
  codeLength := 0x10
  instructions := 0x2005
  instructionsLength := 3

def pushCieOps : List DwarfCfiOp := [⟨.defCfa, 7, 8, 0, 0x2000, 3⟩, ⟨.offset, 16, -8, 0, 0x2003, 2⟩]

def pushFdeOps : List DwarfCfiOp := [⟨.advanceLoc, 1, 0, 0, 0x2005, 1⟩, ⟨.defCfaOffset, 16, 0, 0, 0x2006, 2⟩]

theorem pushProgram_decodes :
    cfiDecode pushProgram pushFde.cie pushFde.cie.instructions pushFde.cie.instructionsLength = some pushCieOps ∧
      cfiDecode pushProgram pushFde.cie pushFde.instructions pushFde.instructionsLength = some pushFdeOps := by
  decide +kernel

theorem pushReturn : ReturnColumn frameTraitsX86_64 pushFde.cie.getReturnRegister := by
  refine ⟨?_, ?_, ?_⟩ <;> decide

theorem pushProgram_supported :
    ∀ i ∈ pushCieOps.map DwarfCfiOp.instruction ++
        reachedBefore (pushFdeOps.map DwarfCfiOp.instruction) pushFde.codeStart 0x1002,
      i.Supported (IsColumn frameTraitsX86_64.unwindRegisterCount pushFde.cie.getReturnRegister) := by
  have hlist : pushCieOps.map DwarfCfiOp.instruction ++
      reachedBefore (pushFdeOps.map DwarfCfiOp.instruction) pushFde.codeStart 0x1002 =
        [.defCfa (.register 7 8), .define 16 (.offset (-8)), .advanceLoc 1, .defCfaOffset 16] := by rfl
  rw [hlist]
  intro i hi
  fin_cases hi
  · trivial
  · exact Or.inr rfl
  · trivial
  · trivial

/-- Behind the push the CFA is at offset 16. -/
theorem parseCFIRules_push :
    ∃ s out, rowsBefore frameTraitsX86_64 (pushCieOps.map DwarfCfiOp.instruction)
        (pushFdeOps.map DwarfCfiOp.instruction) pushFde.codeStart 0x1002 = some s ∧ s.row.cfa = .register 7 16 ∧
      parseCFIRules pushProgram frameTraitsX86_64 pushFde 0x1002 = some out ∧
      Represents pushFde.cie.getReturnRegister out s.row := by
  have hrow : (rowsBefore frameTraitsX86_64 (pushCieOps.map DwarfCfiOp.instruction)
      (pushFdeOps.map DwarfCfiOp.instruction) pushFde.codeStart 0x1002).map (fun s => (s.row.cfa, s.stack.length)) =
      some (.register 7 16, 0) := by decide +kernel
  obtain ⟨s, hs, hpair⟩ := Option.map_eq_some_iff.mp hrow
  obtain ⟨hcfa, hlength⟩ := Prod.mk.inj hpair
  obtain ⟨out, hparse, hrep⟩ := parseCFIRules_rowsBefore (by decide) (by decide) (by decide) pushReturn
    pushProgram_decodes.1 pushProgram_decodes.2 pushProgram_supported hs (List.eq_nil_of_length_eq_zero hlength)
  exact ⟨s, out, hs, hcfa, hparse, hrep⟩

/-- At the location to which the advance goes, its rules are in effect, and those in front of it are put out. -/
theorem parseCFIRules_not_target :
    ∃ out s, pushFde.cie.isValid = true ∧ pushFde.codeStart ≤ 0x1001 ∧ (0x1001 : BitVec 64) < pushFde.getCodeRangeEnd ∧
      ReturnColumn frameTraitsX86_64 pushFde.cie.getReturnRegister ∧
      cfiDecode pushProgram pushFde.cie pushFde.cie.instructions pushFde.cie.instructionsLength = some pushCieOps ∧
      cfiDecode pushProgram pushFde.cie pushFde.instructions pushFde.instructionsLength = some pushFdeOps ∧
      rowsAt frameTraitsX86_64 (pushCieOps.map DwarfCfiOp.instruction) (pushFdeOps.map DwarfCfiOp.instruction)
        pushFde.codeStart 0x1001 = some s ∧
      s.stack = [] ∧ parseCFIRules pushProgram frameTraitsX86_64 pushFde 0x1001 = some out ∧
      ¬ Represents pushFde.cie.getReturnRegister out s.row := by
  have hout : (parseCFIRules pushProgram frameTraitsX86_64 pushFde 0x1001).map (fun out => (out 0).meaning) =
      some (.register 7 8) := by decide +kernel
  have hrow : (rowsAt frameTraitsX86_64 (pushCieOps.map DwarfCfiOp.instruction)
      (pushFdeOps.map DwarfCfiOp.instruction) pushFde.codeStart 0x1001).map (fun s => (s.row.cfa, s.stack.length)) =
      some (.register 7 16, 0) := by decide +kernel
  obtain ⟨out, hparse, hcfa⟩ := Option.map_eq_some_iff.mp hout
  obtain ⟨s, hs, hpair⟩ := Option.map_eq_some_iff.mp hrow
  obtain ⟨hcfa', hlength⟩ := Prod.mk.inj hpair
  refine ⟨out, s, by decide, by decide, by decide, pushReturn, pushProgram_decodes.1, pushProgram_decodes.2, hs,
    List.eq_nil_of_length_eq_zero hlength, hparse, ?_⟩
  intro hrep
  have habs : Rule.register 7 8 = Rule.register 7 16 := by rw [← hcfa, hrep.cfa, hcfa']
  exact absurd habs (by decide)

end XviOs.Dwarf
