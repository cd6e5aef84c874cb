import XviOs.Logger.Message

namespace XviOs.Logger

/-- A byte of the integer is shifted by at least the width of an `int`, which is not defined. -/
def shiftsOut : List Byte → Nat → Bool
  | [], _ => false
  | i :: input, shift => decide (32 ≤ shift) || (decide (i &&& 0x80 ≠ 0) && shiftsOut input (shift + 7))

namespace MessageInternal

/-- Of the integers in front of a variable, as many are read as `decode` reads. -/
def variableShiftsOut (input : List Byte) : Bool :=
  shiftsOut input 0 ||
    match readVarInt input with
    | none => false
    | some (varLen, input) =>
      if input.length < varLen.toNat then false
      else
        shiftsOut input 0 ||
          match readVarInt input with
          | none => false
          | some (_, input) => shiftsOut input 0

def loopShiftsOut : Nat → List Byte → Bool
  | 0, _ => false
  | fuel + 1, input =>
    if input.isEmpty then false
    else
      variableShiftsOut input ||
        match decodeVariable input with
        | none => false
        | some (_, input) => loopShiftsOut fuel input

/-- What is left of the buffer for the variables when the size and the encoding are accepted. -/
def variableInput (m : MessageInternal) : Option (List Byte) := do
  let (len, input) ← readUInt32le m.preEncoded
  if m.preEncoded.length < len.toNat then none
  let (encoding, input) ← readVarInt input
  if encodingCurrent < encoding then none
  return input

/-- Some integer that `decode` reads has a byte too many. -/
def decodeShiftsOut (m : MessageInternal) : Bool :=
  if m.vars ≠ [] then false
  else
    match readUInt32le m.preEncoded with
    | none => false
    | some (len, input) =>
      if m.preEncoded.length < len.toNat then false
      else
        shiftsOut input 0 ||
          match m.variableInput with
          | none => false
          | some input => loopShiftsOut input.length input

/-- The variable's header is somewhere in the buffer, and behind it are as many bytes as it says. -/
def SpansInside (buffer : List Byte) (v : Variable) : Prop :=
  ∃ before input header name rest varLen type nameLen,
    buffer = before ++ input ∧ readVarInt input = some (varLen, header) ∧ readVarInt header = some (type, name) ∧
      ∃ bytes, readVarInt name = some (nameLen, bytes) ∧ bytes = v.name ++ v.data ++ rest ∧
        v.name.length = nameLen.toNat ∧
          (header.length - bytes.length) + v.name.length + v.data.length = varLen.toNat

/-- A sequence of variables that can all be decoded. -/
inductive Variables : List Byte → Prop
  | nil : Variables []
  | cons {input rest : List Byte} (v : Variable) (h : decodeVariable input = some (v, rest)) (hrest : Variables rest) :
      Variables input

variable {m : MessageInternal} {input rest : List Byte} {v : Variable}

theorem readVarIntLoop_suffix {val val' : BitVec 64} {shift : Nat}
    (h : readVarIntLoop input val shift = some (val', rest)) :
    ∃ bytes, bytes ≠ [] ∧ input = bytes ++ rest := by
  induction input generalizing val shift with
  | nil => cases h
  | cons i input ih =>
    rw [readVarIntLoop] at h
    cases hshift : Dwarf.lshiftInt (i.setWidth 32 &&& 0x7f) shift with
    | none =>
      rw [hshift] at h
      cases h
    | some group =>
      rw [hshift] at h
      simp only at h
      split at h
      · obtain ⟨bytes, -, rfl⟩ := ih h
        exact ⟨i :: bytes, List.cons_ne_nil _ _, rfl⟩
      · cases h
        exact ⟨[i], List.cons_ne_nil _ _, rfl⟩

theorem readVarInt_suffix {val : BitVec 64} (h : readVarInt input = some (val, rest)) :
    ∃ bytes, bytes ≠ [] ∧ input = bytes ++ rest := readVarIntLoop_suffix h

/-- What one variable is decoded from. -/
theorem decodeVariable_eq_some (h : decodeVariable input = some (v, rest)) :
    SpansInside input v ∧ ∃ bytes, bytes ≠ [] ∧ input = bytes ++ rest := by
  rw [decodeVariable] at h
  cases hvar : readVarInt input with
  | none =>
    rw [hvar] at h
    cases h
  | some r =>
    obtain ⟨varLen, header⟩ := r
    rw [hvar] at h
    by_cases hshort : header.length < varLen.toNat
    · simp [hshort] at h
    cases htype : readVarInt header with
    | none => simp [htype, hshort] at h
    | some r =>
      obtain ⟨type, name⟩ := r
      cases hname : readVarInt name with
      | none => simp [htype, hname, hshort] at h
      | some r =>
        obtain ⟨nameLen, bytes⟩ := r
        by_cases hlong : bytes.length < nameLen.toNat ∨ varLen.toNat < nameLen.toNat + (header.length - bytes.length)
        · simp [htype, hname, hshort, hlong] at h
        simp only [htype, hname, hshort, hlong, Option.bind_eq_bind, Option.bind_some, if_false] at h
        obtain ⟨rfl, rfl⟩ := Prod.mk.inj (Option.some.inj h)
        obtain ⟨front, hfront, hinput⟩ := readVarInt_suffix hvar
        obtain ⟨middle, -, hheader⟩ := readVarInt_suffix htype
        obtain ⟨back, -, hback⟩ := readVarInt_suffix hname
        have hlen : header.length = middle.length + (back.length + bytes.length) := by
          rw [hheader, hback, List.length_append, List.length_append]
        generalize hn : varLen.toNat - nameLen.toNat - (header.length - bytes.length) = n
        have hsplit : bytes = bytes.take nameLen.toNat ++ (bytes.drop nameLen.toNat).take n ++
            (bytes.drop nameLen.toNat).drop n := by
          rw [List.append_assoc, List.take_append_drop, List.take_append_drop]
        have hname' : (bytes.take nameLen.toNat).length = nameLen.toNat := by
          rw [List.length_take]
          omega
        have hvalue : ((bytes.drop nameLen.toNat).take n).length = n := by
          rw [List.length_take, List.length_drop]
          omega
        constructor
        · refine ⟨[], input, header, name, _, varLen, type, nameLen, rfl, hvar, htype, bytes, hname, hsplit, hname', ?_⟩
          simp only [hname', hvalue]
          omega
        · refine ⟨front ++ (middle ++ (back ++ (bytes.take nameLen.toNat ++ (bytes.drop nameLen.toNat).take n))),
            List.append_ne_nil_of_left_ne_nil hfront _, ?_⟩
          rw [List.append_assoc, List.append_assoc, List.append_assoc, ← hsplit, ← hback, ← hheader, hinput]

theorem decodeVariable_length (h : decodeVariable input = some (v, rest)) : rest.length < input.length := by
  obtain ⟨-, bytes, hne, rfl⟩ := decodeVariable_eq_some h
  rw [List.length_append]
  exact Nat.lt_add_of_pos_left (List.length_pos_iff.mpr hne)

/-- The loop ends with the input. -/
theorem decodeLoop_fuel {fuel : Nat} (hfuel : input.length ≤ fuel) :
    decodeLoop fuel input m = decodeLoop input.length input m := by
  induction hn : input.length using Nat.strong_induction_on generalizing input fuel m with
  | _ n ih =>
    subst hn
    cases input with
    | nil => cases fuel <;> rfl
    | cons i input =>
      cases fuel with
      | zero => exact absurd hfuel (by simp)
      | succ fuel =>
        rw [List.length_cons, decodeLoop, decodeLoop]
        cases h : decodeVariable (i :: input) with
        | none => rfl
        | some r =>
          obtain ⟨v, rest⟩ := r
          have hlt := decodeVariable_length h
          rw [List.length_cons] at hlt hfuel
          simp only
          rw [ih rest.length hlt (by omega : rest.length ≤ fuel) rfl,
            ih rest.length hlt (by omega : rest.length ≤ input.length) rfl]

/-- One step of the loop, with enough fuel. -/
theorem decodeLoop_step (h : decodeVariable input = some (v, rest)) :
    decodeLoop input.length input m = decodeLoop rest.length rest (m.pushVariable v) := by
  have hlt := decodeVariable_length h
  obtain ⟨k, hk⟩ := Nat.exists_eq_succ_of_ne_zero (Nat.ne_zero_of_lt hlt)
  rw [hk, decodeLoop, h, if_neg]
  · exact decodeLoop_fuel (by omega)
  · intro hempty
    rw [List.isEmpty_iff.mp hempty] at hk
    cases hk

theorem decodeLoop_fails (hne : input ≠ []) (h : decodeVariable input = none) :
    decodeLoop input.length input m = (false, m) := by
  obtain ⟨k, hk⟩ := Nat.exists_eq_succ_of_ne_zero (mt List.length_eq_zero_iff.mp hne)
  rw [hk, decodeLoop, h, if_neg (mt List.isEmpty_iff.mp hne)]

theorem decodeLoop_variables_iff : (decodeLoop input.length input m).1 = true ↔ Variables input := by
  induction hn : input.length using Nat.strong_induction_on generalizing input m with
  | _ n ih =>
    subst hn
    by_cases hnil : input = []
    · subst hnil
      exact iff_of_true rfl Variables.nil
    cases h : decodeVariable input with
    | none =>
      rw [decodeLoop_fails hnil h]
      refine iff_of_false Bool.false_ne_true fun hvars => ?_
      cases hvars with
      | nil => exact hnil rfl
      | cons v h' _ => rw [h] at h'; cases h'
    | some r =>
      obtain ⟨v, rest⟩ := r
      rw [decodeLoop_step h, ih rest.length (decodeVariable_length h) rfl]
      refine ⟨Variables.cons v h, fun hvars => ?_⟩
      cases hvars with
      | nil => exact absurd rfl hnil
      | cons v' h' hrest =>
        rw [h] at h'
        cases h'
        exact hrest

/-- The loop keeps what is there and adds variables whose spans are inside. -/
theorem decodeLoop_vars (m : MessageInternal) (input : List Byte) : ∃ added,
    (decodeLoop input.length input m).2.vars = m.vars ++ added ∧
    (decodeLoop input.length input m).2.preEncoded = m.preEncoded ∧ ∀ v ∈ added, SpansInside input v := by
  induction hn : input.length using Nat.strong_induction_on generalizing input m with
  | _ n ih =>
    subst hn
    by_cases hnil : input = []
    · subst hnil
      exact ⟨[], (List.append_nil _).symm, rfl, List.forall_mem_nil _⟩
    cases h : decodeVariable input with
    | none =>
      rw [decodeLoop_fails hnil h]
      exact ⟨[], (List.append_nil _).symm, rfl, List.forall_mem_nil _⟩
    | some r =>
      obtain ⟨v, rest⟩ := r
      obtain ⟨hspans, bytes, -, hinput⟩ := decodeVariable_eq_some h
      obtain ⟨added, hvars, hpre, hadded⟩ := ih rest.length (decodeVariable_length h) (m.pushVariable v) rest rfl
      rw [decodeLoop_step h]
      refine ⟨v :: added, ?_, hpre, List.forall_mem_cons.mpr ⟨hspans, fun w hw => ?_⟩⟩
      · rw [hvars, pushVariable, List.append_assoc]
        rfl
      · obtain ⟨before, input', header, name, rest', varLen, type, nameLen, hbuffer, hall⟩ := hadded w hw
        exact ⟨bytes ++ before, input', header, name, rest', varLen, type, nameLen,
          by rw [hinput, hbuffer, List.append_assoc], hall⟩

/-- What `decode` does with a message that has no variables. -/
theorem decode_eq (hvars : m.vars = []) : m.decode =
    match m.variableInput with
    | none => (false, m)
    | some input => decodeLoop input.length input m := by
  rw [decode, if_neg (not_not.mpr hvars), variableInput]
  cases readUInt32le m.preEncoded with
  | none => rfl
  | some r =>
    obtain ⟨len, input⟩ := r
    by_cases hlen : m.preEncoded.length < len.toNat
    · simp [hlen]
    cases hread : readVarInt input with
    | none => simp [hlen, hread]
    | some r =>
      obtain ⟨encoding, input⟩ := r
      by_cases hencoding : encodingCurrent < encoding
      · simp [hlen, hread, hencoding]
      · simp [hlen, hread, hencoding]

theorem variableInput_suffix (h : m.variableInput = some input) : ∃ before, m.preEncoded = before ++ input := by
  rw [variableInput] at h
  cases hread : readUInt32le m.preEncoded with
  | none =>
    rw [hread] at h
    cases h
  | some r =>
    obtain ⟨len, bytes⟩ := r
    have hbytes : ∃ before, m.preEncoded = before ++ bytes := by
      match hpre : m.preEncoded, hread with
      | b0 :: b1 :: b2 :: b3 :: rest, hread =>
        obtain ⟨-, rfl⟩ := Prod.mk.inj (Option.some.inj hread)
        exact ⟨[b0, b1, b2, b3], rfl⟩
    rw [hread] at h
    by_cases hlen : m.preEncoded.length < len.toNat
    · simp [hlen] at h
    cases hencoding : readVarInt bytes with
    | none => simp [hlen, hencoding] at h
    | some r =>
      obtain ⟨encoding, rest⟩ := r
      by_cases hcurrent : encodingCurrent < encoding
      · simp [hlen, hencoding, hcurrent] at h
      · simp only [hlen, hencoding, hcurrent, Option.bind_eq_bind, Option.bind_some, if_false] at h
        obtain rfl := Option.some.inj h
        obtain ⟨before, hbefore⟩ := hbytes
        obtain ⟨bytes', -, rfl⟩ := readVarInt_suffix hencoding
        exact ⟨before ++ bytes', by rw [hbefore, List.append_assoc]⟩

/-- Every integer that is read is defined, the loop ends, what is recorded lies in the buffer, and a failure leaves the
message as it was, so that it fails again. -/
structure DecodeRight (m : MessageInternal) : Prop where
  defined : m.decodeShiftsOut = false
  ends : ∀ input, m.variableInput = some input → ∀ fuel, input.length ≤ fuel →
    decodeLoop fuel input m = decodeLoop input.length input m
  inside : m.vars = [] → ∀ v ∈ m.decode.2.vars, SpansInside m.preEncoded v
  unchanged : m.decode.1 = false → m.decode.2 = m
  again : m.decode.1 = false → m.decode.2.decode.1 = false

theorem decode_inside (hvars : m.vars = []) : ∀ v ∈ m.decode.2.vars, SpansInside m.preEncoded v := by
  rw [decode_eq hvars]
  cases hinput : m.variableInput with
  | none =>
    change ∀ v ∈ m.vars, _
    rw [hvars]
    exact List.forall_mem_nil _
  | some input =>
    obtain ⟨before, hbefore⟩ := variableInput_suffix hinput
    obtain ⟨added, hadded, -, hspans⟩ := decodeLoop_vars m input
    simp only
    rw [hadded, hvars, List.nil_append]
    intro v hv
    obtain ⟨before', input', header, name, rest, varLen, type, nameLen, rfl, hall⟩ := hspans v hv
    exact ⟨before ++ before', input', header, name, rest, varLen, type, nameLen,
      by rw [hbefore, List.append_assoc], hall⟩

/-- A failure behind a variable leaves that variable. -/
theorem decodeLoop_changes (h : decodeVariable input = some (v, rest)) (hvars : m.vars = []) :
    (decodeLoop input.length input m).2.vars ≠ [] := by
  obtain ⟨added, hadded, -⟩ := decodeLoop_vars (m.pushVariable v) rest
  rw [decodeLoop_step h, hadded, pushVariable, hvars]
  exact List.cons_ne_nil v added

/-- `decode` is right unless a variable behind another one is malformed. -/
theorem decode_right_iff (m : MessageInternal) : m.DecodeRight ↔
    m.decodeShiftsOut = false ∧ (m.vars = [] → ∀ input, m.variableInput = some input →
      decodeVariable input = none ∨ Variables input) := by
  constructor
  · intro h
    refine ⟨h.defined, fun hvars input hinput => ?_⟩
    cases hfirst : decodeVariable input with
    | none => exact Or.inl rfl
    | some r =>
      obtain ⟨v, rest⟩ := r
      have heq := decode_eq hvars
      rw [hinput] at heq
      refine Or.inr (decodeLoop_variables_iff (m := m).mp ?_)
      by_contra hfails
      have hchanged := decodeLoop_changes hfirst hvars
      have hsame := h.unchanged (by rw [heq]; simpa using hfails)
      rw [heq] at hsame
      simp only at hsame
      rw [hsame, hvars] at hchanged
      exact hchanged rfl
  · rintro ⟨hdefined, hvariables⟩
    have hsame : m.decode.1 = false → m.decode.2 = m := by
      intro hfails
      by_cases hvars : m.vars = []
      · have heq := decode_eq hvars
        cases hinput : m.variableInput with
        | none => rw [heq, hinput]
        | some input =>
          rw [hinput] at heq
          rw [heq] at hfails ⊢
          simp only at hfails ⊢
          obtain hnone | hall := hvariables hvars input hinput
          · by_cases hnil : input = []
            · subst hnil
              cases hfails
            · rw [decodeLoop_fails hnil hnone]
          · rw [decodeLoop_variables_iff.mpr hall] at hfails
            cases hfails
      · rw [decode, if_pos hvars] at hfails
        cases hfails
    refine ⟨hdefined, fun input _ fuel => decodeLoop_fuel, decode_inside, hsame, fun hfails => ?_⟩
    rw [hsame hfails]
    exact hfails

/-- A variable without a name, and then a length with nothing behind it. -/
def cutOff : MessageInternal := { preEncoded := [9, 0, 0, 0, 0, 2, 0, 0, 5] }

theorem decode_cutOff : ¬ ∀ m : MessageInternal, m.DecodeRight := by
  intro h
  have hfails : cutOff.decode.1 = false := by decide +kernel
  have hagain : cutOff.decode.2.decode.1 = true := by decide +kernel
  have hfalse := (h cutOff).again hfails
  rw [hagain] at hfalse
  cases hfalse

end MessageInternal

end XviOs.Logger
