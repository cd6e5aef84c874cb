import XviOs.Logger.Message

namespace XviOs.Logger

open Library.Leb128 (encodeUnsigned encodeUnsigned_eq_groups)
open Dwarf (decodeULEB128 decodeULEB128_eq_iff decodeLoop decodeLoop_short decodeLoop_five lshiftInt toNat_lowBits
  toNat_five)

section VarInt

variable (val : BitVec 64)

theorem writeData_atEnd (range data : List Byte) :
    (OutputBuffer.atEnd range).writeData data = .atEnd (range ++ data) := by
  simp [OutputBuffer.atEnd, OutputBuffer.writeData]

theorem writeData_seekBegin {head data : List Byte} (rest : List Byte) (h : data.length = head.length) :
    ((OutputBuffer.atEnd (head ++ rest)).seekBegin.writeData data).range = data ++ rest := by
  simp [OutputBuffer.atEnd, OutputBuffer.seekBegin, OutputBuffer.writeData, h]

theorem length_integerBytes (n : Nat) (value : BitVec 64) : (integerBytes n value).length = n := by
  rw [integerBytes, List.length_map, List.length_range]

theorem byte_continued :
    (0x80 ||| val &&& 0x7f : BitVec 64).setWidth 8 = BitVec.ofNat 8 (val.toNat % 128 + 128) := by
  have hlow : (val &&& 0x7f).toNat = val.toNat % 128 := by
    rw [BitVec.toNat_and]
    exact Nat.and_two_pow_sub_one_eq_mod val.toNat 7
  have hor := Nat.two_pow_add_eq_or_of_lt (i := 7) (Nat.mod_lt val.toNat (by decide)) 1
  apply BitVec.eq_of_toNat_eq
  rw [BitVec.toNat_setWidth, BitVec.toNat_or, hlow, BitVec.toNat_ofNat, Nat.add_comm]
  exact congrArg (· % 2 ^ 8) hor.symm

theorem encodeUnsigned_of_lt {v : Nat} (h : v < 128) : encodeUnsigned v = [BitVec.ofNat 8 v] := by
  rw [encodeUnsigned, if_pos h]

theorem encodeUnsigned_of_le {v : Nat} (h : 128 ≤ v) :
    encodeUnsigned v = BitVec.ofNat 8 (v % 128 + 128) :: encodeUnsigned (v / 128) := by
  rw [encodeUnsigned, if_neg (by omega)]

theorem encodeUnsigned_length_pos (v : Nat) : 0 < (encodeUnsigned v).length := by
  rw [encodeUnsigned]
  split
  · exact Nat.one_pos
  · exact Nat.succ_pos _

theorem writeVarInt_atEnd (range : List Byte) :
    writeVarInt (.atEnd range) val = .atEnd (range ++ encodeUnsigned val.toNat) := by
  induction hn : val.toNat using Nat.strongRecOn generalizing val range with
  | ind n ih =>
    rw [writeVarInt]
    by_cases hsmall : val.toNat < 128
    · rw [if_neg (not_not.mpr ((highBits_eq_zero_iff val).mpr hsmall)), writeData_atEnd, ← hn,
        encodeUnsigned_of_lt hsmall, BitVec.ofNat_toNat]
    · have hle : 128 ≤ val.toNat := Nat.not_lt.mp hsmall
      rw [if_pos (mt (highBits_eq_zero_iff val).mp hsmall), writeData_atEnd,
        ih (val.toNat / 128) (by omega) (val >>> 7) _ (toNat_shift_seven val), byte_continued, ← hn,
        encodeUnsigned_of_le hle, List.append_assoc, List.singleton_append]

theorem varIntLength_eq : varIntLength val = (encodeUnsigned val.toNat).length := by
  induction hn : val.toNat using Nat.strongRecOn generalizing val with
  | ind n ih =>
    rw [varIntLength]
    by_cases hsmall : val.toNat < 128
    · rw [if_neg (not_not.mpr ((highBits_eq_zero_iff val).mpr hsmall)), ← hn, encodeUnsigned_of_lt hsmall]
      rfl
    · have hle : 128 ≤ val.toNat := Nat.not_lt.mp hsmall
      rw [if_pos (mt (highBits_eq_zero_iff val).mp hsmall),
        ih (val.toNat / 128) (by omega) (val >>> 7) (toNat_shift_seven val), ← hn, encodeUnsigned_of_le hle]
      rfl

/-- The loop is that of the DWARF reader. -/
theorem readVarIntLoop_eq (input : List Byte) (shift : Nat) :
    readVarIntLoop input val shift = (decodeLoop input val shift).map fun s => (s.value, s.ptr) := by
  induction input generalizing val shift with
  | nil => rfl
  | cons i input ih =>
    rw [readVarIntLoop, decodeLoop]
    cases lshiftInt (i.setWidth 32 &&& 0x7f) shift with
    | none => rfl
    | some group =>
      simp only [ih, ne_eq, ite_not]
      split
      · rfl
      · rfl

theorem readVarInt_encode (rest : List Byte) (h : val.toNat < 2 ^ 31) :
    readVarInt (encodeUnsigned val.toNat ++ rest) = some (val, rest) := by
  rw [readVarInt, readVarIntLoop_eq]
  exact (decodeULEB128_eq_iff val rest).mpr h

theorem toNat_ofNat_length {n : Nat} (h : n < 2 ^ 31) : (BitVec.ofNat 64 n).toNat = n := by
  rw [BitVec.toNat_ofNat, Nat.mod_eq_of_lt (by omega)]

theorem readVarInt_length {n : Nat} (h : n < 2 ^ 31) (rest : List Byte) :
    readVarInt (encodeUnsigned n ++ rest) = some (BitVec.ofNat 64 n, rest) := by
  have hread := readVarInt_encode (BitVec.ofNat 64 n) rest
  rw [toNat_ofNat_length h] at hread
  exact hread h

/-- The bits that are lost with a group are not those of a word of 32 bits. -/
theorem readVarInt_encode_word (type : BitVec 32) (rest : List Byte) :
    ∃ x, readVarInt (encodeUnsigned type.toNat ++ rest) = some (x, rest) ∧ x.setWidth 32 = type := by
  obtain ⟨n, hgroups, hlt, hle⟩ := encodeUnsigned_eq_groups type.toNat
  have htype := type.isLt
  rw [readVarInt, readVarIntLoop_eq, hgroups]
  obtain hn | rfl | hn : n ≤ 3 ∨ n = 4 ∨ 5 ≤ n := by omega
  · refine ⟨_, by rw [decodeLoop_short _ _ hn]; rfl, ?_⟩
    apply BitVec.eq_of_toNat_eq
    rw [BitVec.toNat_setWidth, toNat_lowBits (by omega), Int.emod_eq_of_lt (by positivity) (by exact_mod_cast hlt)]
    exact Nat.mod_eq_of_lt htype
  · refine ⟨_, by rw [decodeLoop_five]; rfl, ?_⟩
    apply BitVec.eq_of_toNat_eq
    rw [BitVec.toNat_setWidth, toNat_five]
    split
    · omega
    · omega
  · obtain ⟨m, rfl⟩ : ∃ m, n = m + 1 := ⟨n - 1, by omega⟩
    have hpow : 128 ^ 5 ≤ 128 ^ (m + 1) := Nat.pow_le_pow_right (by decide) hn
    have hbig := hle m rfl
    omega

end VarInt

namespace MessageInternal

/-- The variable that is written: of a name only its length modulo the size of a word is kept. -/
def stored (v : Variable) : Variable := { v with name := v.name.take (v.name.length % 2 ^ 32) }

theorem length_stored_name (v : Variable) : (stored v).name.length = v.name.length % 2 ^ 32 := by
  rw [stored, List.length_take]
  exact Nat.min_eq_left (Nat.mod_le _ _)

def headerBytes (v : Variable) : List Byte := encodeUnsigned v.type.toNat ++ encodeUnsigned v.name.length

def contentLength (v : Variable) : Nat := (headerBytes v).length + v.name.length + v.data.length % 2 ^ 32

/-- The bytes of a variable whose name is not cut off. -/
def variableBytes (v : Variable) : List Byte :=
  encodeUnsigned (contentLength v % 2 ^ 64) ++ (headerBytes v ++ (v.name ++ v.data))

theorem addVariable_eq (m : MessageInternal) (v : Variable) :
    m.addVariable v = { m with encoded := m.encoded ++ variableBytes (stored v) } := by
  have hname : (BitVec.ofNat 32 v.name.length).toNat = (stored v).name.length := by
    rw [length_stored_name, BitVec.toNat_ofNat]
  have hdata : (BitVec.ofNat 32 v.data.length).toNat = v.data.length % 2 ^ 32 := BitVec.toNat_ofNat _ _
  have hwide (x : BitVec 32) : (x.setWidth 64).toNat = x.toNat := BitVec.toNat_setWidth_of_le (by decide)
  have hcut : v.name.take (stored v).name.length = (stored v).name := by
    rw [length_stored_name, stored]
  simp only [addVariable, writeVarInt_atEnd, writeData_atEnd, varIntLength_eq, hwide, hname, hdata, hcut,
    BitVec.toNat_ofNat]
  simp [OutputBuffer.atEnd, variableBytes, headerBytes, contentLength, stored]

/-- The bytes of a variable that is encoded in less than 2 GiB. -/
theorem variableBytes_eq {v : Variable} (h : (variableBytes v).length < 2 ^ 31) :
    variableBytes v =
      encodeUnsigned (headerBytes v ++ (v.name ++ v.data)).length ++ (headerBytes v ++ (v.name ++ v.data)) := by
  have hlength : contentLength v % 2 ^ 64 = (headerBytes v ++ (v.name ++ v.data)).length := by
    simp only [variableBytes, contentLength, List.length_append] at h ⊢
    omega
  rw [variableBytes, hlength]

theorem decodeVariable_variableBytes {v : Variable} (h : (variableBytes v).length < 2 ^ 31) (rest : List Byte) :
    decodeVariable (variableBytes v ++ rest) = some (v, rest) := by
  have hbytes := variableBytes_eq h
  rw [hbytes, List.length_append] at h
  have hlen : (headerBytes v ++ (v.name ++ v.data)).length < 2 ^ 31 := by omega
  have hname : v.name.length < 2 ^ 31 := by
    simp only [List.length_append] at hlen
    omega
  obtain ⟨type, htype, hword⟩ :=
    readVarInt_encode_word v.type (encodeUnsigned v.name.length ++ (v.name ++ v.data ++ rest))
  have hheader : headerBytes v ++ (v.name ++ v.data) ++ rest =
      encodeUnsigned v.type.toNat ++ (encodeUnsigned v.name.length ++ (v.name ++ v.data ++ rest)) := by
    simp only [headerBytes, List.append_assoc]
  rw [decodeVariable, hbytes, List.append_assoc, readVarInt_length hlen]
  simp only [Option.bind_eq_bind, Option.bind_some, toNat_ofNat_length hlen, hheader, htype, readVarInt_length hname,
    toNat_ofNat_length hname]
  have hbefore : (encodeUnsigned v.type.toNat ++ (encodeUnsigned v.name.length ++ (v.name ++ v.data ++ rest))).length -
      (v.name ++ v.data ++ rest).length = (headerBytes v).length := by
    rw [← hheader, List.append_assoc, List.length_append, Nat.add_sub_cancel]
  have hvalue : (headerBytes v ++ (v.name ++ v.data)).length - v.name.length - (headerBytes v).length =
      v.data.length := by
    simp only [List.length_append]
    omega
  rw [hbefore, hvalue, if_neg, if_neg]
  · simp [hword]
  · simp only [List.length_append]
    omega
  · rw [← hheader]
    simp only [List.length_append]
    omega

/-- The value of the last variable with the name of the message, or `msg`. -/
def lastMessage (msg : List Byte) (vars : List Variable) : List Byte :=
  vars.foldl (fun msg v => if v.name = SystemVariable.message then v.data else msg) msg

theorem lastMessage_cons (msg : List Byte) (v : Variable) (vars : List Variable) :
    lastMessage msg (v :: vars) = lastMessage (if v.name = SystemVariable.message then v.data else msg) vars := rfl

/-- The loop reads all variables back, when they take less than 2 GiB. -/
theorem decodeLoop_variables (vars : List Variable) (m : MessageInternal) {fuel : Nat}
    (hsize : (vars.flatMap variableBytes).length < 2 ^ 31) (hfuel : (vars.flatMap variableBytes).length ≤ fuel) :
    decodeLoop fuel (vars.flatMap variableBytes) m =
      (true, { m with vars := m.vars ++ vars, msg := lastMessage m.msg vars }) := by
  induction vars generalizing m fuel with
  | nil =>
    rw [List.append_nil]
    cases fuel with
    | zero => rfl
    | succ fuel => rfl
  | cons v vars ih =>
    rw [List.flatMap_cons, List.length_append] at hsize hfuel
    rw [List.flatMap_cons]
    have hpos : 0 < (variableBytes v).length := by
      rw [variableBytes, List.length_append]
      exact Nat.add_pos_left (encodeUnsigned_length_pos _) _
    obtain ⟨fuel, rfl⟩ : ∃ k, fuel = k + 1 := ⟨fuel - 1, by omega⟩
    rw [MessageInternal.decodeLoop, if_neg, decodeVariable_variableBytes (by omega)]
    · change decodeLoop fuel (vars.flatMap variableBytes) (m.pushVariable v) = _
      rw [ih _ (by omega) (by omega), lastMessage_cons, pushVariable, List.append_assoc, List.singleton_append]
    · rw [List.isEmpty_iff]
      exact fun hnil => by simp [(List.append_eq_nil_iff.mp hnil).1] at hpos

/-- The variables that every message has. -/
def systemVariables (facility : List Byte) (p : Priority) (message : List Byte) : List Variable :=
  [⟨SystemVariable.facility, .string, facility⟩,
    ⟨SystemVariable.priority, .signedInteger, integerBytes (signedSize (p.signExtend 64)) (p.signExtend 64)⟩,
    ⟨SystemVariable.message, .string, message⟩]

variable (facility : List Byte) (p : Priority) (message : List Byte) (vars : List Variable)

theorem foldl_addVariable (m : MessageInternal) :
    vars.foldl addVariable m = { m with encoded := m.encoded ++ (vars.map stored).flatMap variableBytes } := by
  induction vars generalizing m with
  | nil => simp
  | cons v vars ih =>
    rw [List.foldl_cons, ih, addVariable_eq, List.map_cons, List.flatMap_cons, List.append_assoc]

theorem create_eq :
    create facility p message = (systemVariables facility p message).foldl addVariable
      { encoded := integerBytes 4 0 ++ encodeUnsigned 0 } := by
  simp only [create, writeUInt32le, writeData_atEnd, writeVarInt_atEnd]
  rfl

/-- The variables behind the size and the number of the encoding. -/
theorem encode_eq :
    ∃ bytes, bytes = encodeUnsigned 0 ++ ((systemVariables facility p message ++ vars).map stored).flatMap variableBytes ∧
      (encode facility p message vars).preEncoded = integerBytes 4 (BitVec.ofNat 64 (bytes.length + 4)) ++ bytes ∧
      (encode facility p message vars).encoded = (encode facility p message vars).preEncoded := by
  refine ⟨_, rfl, ?_, rfl⟩
  rw [encode, create_eq, ← List.foldl_append, foldl_addVariable, finalise, writeUInt32le, List.append_assoc]
  refine (writeData_seekBegin _ ?_).trans ?_
  · rw [length_integerBytes, length_integerBytes]
  · rw [List.length_append, length_integerBytes, Nat.add_comm]

theorem readUInt32le_integerBytes (value : BitVec 64) (rest : List Byte) :
    readUInt32le (integerBytes 4 value ++ rest) = some (value.setWidth 32, rest) := by
  have hbytes : (value >>> 24).setWidth 8 ++ (value >>> 16).setWidth 8 ++ (value >>> 8).setWidth 8 ++
      (value >>> 0).setWidth 8 = value.setWidth 32 := by
    ext i hi
    simp
    grind
  change some ((value >>> 24).setWidth 8 ++ (value >>> 16).setWidth 8 ++ (value >>> 8).setWidth 8 ++
      (value >>> 0).setWidth 8, rest) = _
  rw [hbytes]

/-- Every message shorter than 2 GiB is decoded to its variables, with the names that were written. -/
theorem ofEncoded_encode (hsize : (encode facility p message vars).encoded.length < 2 ^ 31) :
    ofEncoded (encode facility p message vars).preEncoded =
      { msg := lastMessage [] ((systemVariables facility p message ++ vars).map stored)
        vars := (systemVariables facility p message ++ vars).map stored
        preEncoded := (encode facility p message vars).preEncoded } := by
  obtain ⟨bytes, hbytes, hpre, hencoded⟩ := encode_eq facility p message vars
  rw [hencoded, hpre, List.length_append, length_integerBytes] at hsize
  have hlen : ((BitVec.ofNat 64 (bytes.length + 4)).setWidth 32).toNat = 4 + bytes.length := by
    rw [BitVec.toNat_setWidth, toNat_ofNat_length (by omega), Nat.mod_eq_of_lt (by omega), Nat.add_comm]
  have hvars : (((systemVariables facility p message ++ vars).map stored).flatMap variableBytes).length < 2 ^ 31 := by
    rw [hbytes, List.length_append] at hsize
    omega
  rw [ofEncoded, decode, if_neg (by simp), hpre, readUInt32le_integerBytes]
  change (if _ then _ else _ : Bool × MessageInternal).2 = _
  rw [if_neg, hbytes, readVarInt_length (by decide)]
  · change (if _ then _ else _ : Bool × MessageInternal).2 = _
    rw [if_neg (by decide), decodeLoop_variables _ _ hvars le_rfl]
    rfl
  · rw [List.length_append, length_integerBytes, hlen]
    exact lt_irrefl _

theorem stored_eq_iff (v : Variable) : stored v = v ↔ v.name.length < 2 ^ 32 := by
  constructor
  · intro h
    have hlength := length_stored_name v
    rw [h] at hlength
    omega
  · intro h
    rw [stored, Nat.mod_eq_of_lt h, List.take_length]

theorem stored_systemVariables : ∀ v ∈ systemVariables facility p message, stored v = v := by
  have hfacility : SystemVariable.facility.length < 2 ^ 32 := by decide
  have hpriority : SystemVariable.priority.length < 2 ^ 32 := by decide
  have hmessage : SystemVariable.message.length < 2 ^ 32 := by decide
  intro v hv
  rw [stored_eq_iff]
  simp only [systemVariables, List.mem_cons, List.not_mem_nil, or_false] at hv
  obtain rfl | rfl | rfl := hv
  · exact hfacility
  · exact hpriority
  · exact hmessage

theorem signExtend_setWidth {w : Nat} (x : BitVec w) : (x.signExtend 64).setWidth 32 = x.signExtend 32 := by
  ext i hi
  simp [BitVec.getElem_signExtend]
  grind

/-- The priority is not changed by a size that holds it. -/
theorem signExtend_of_fits {w : Nat} (h : ((p.signExtend 64).setWidth w).signExtend 64 = p.signExtend 64) :
    ((p.signExtend 64).setWidth w).signExtend 32 = p := by
  rw [← signExtend_setWidth, h, signExtend_setWidth, BitVec.signExtend_eq]

theorem loadPriority_integerBytes :
    loadPriority (integerBytes (signedSize (p.signExtend 64)) (p.signExtend 64)) = p := by
  have hword : (p.signExtend 64).setWidth 32 = p := by
    rw [signExtend_setWidth, BitVec.signExtend_eq]
  rw [signedSize]
  split_ifs with h8 h16 h32
  · exact signExtend_of_fits p h8
  · have hbytes : ((p.signExtend 64) >>> 8).setWidth 8 ++ ((p.signExtend 64) >>> 0).setWidth 8 =
        (p.signExtend 64).setWidth 16 := by
      ext i hi
      simp
      grind
    change (((p.signExtend 64) >>> 8).setWidth 8 ++ ((p.signExtend 64) >>> 0).setWidth 8).signExtend 32 = p
    rw [hbytes]
    exact signExtend_of_fits p h16
  · have hread := readUInt32le_integerBytes (p.signExtend 64) []
    rw [hword] at hread
    exact congrArg Prod.fst (Option.some.inj hread)
  · exact absurd (by rw [hword]) h32

theorem lastMessage_eq (msg : List Byte) :
    lastMessage msg vars =
      (((vars.filter fun v => v.name = SystemVariable.message).getLast?).map Variable.data).getD msg := by
  induction vars using List.reverseRecOn with
  | nil => rfl
  | append_singleton vars v ih =>
    rw [lastMessage, List.foldl_concat, List.filter_append]
    by_cases hv : v.name = SystemVariable.message
    · simp [hv]
    · rw [List.filter_cons_of_neg (by simpa using hv), List.filter_nil, List.append_nil, ← ih, if_neg hv]
      rfl

theorem map_stored_eq_iff :
    (systemVariables facility p message ++ vars).map stored = systemVariables facility p message ++ vars ↔
      ∀ v ∈ vars, v.name.length < 2 ^ 32 := by
  have hmap := List.map_inj_left (f := stored) (g := id) (l := systemVariables facility p message ++ vars)
  rw [List.map_id] at hmap
  rw [hmap]
  constructor
  · intro h v hv
    exact (stored_eq_iff v).mp (h v (List.mem_append_right _ hv))
  · intro h v hv
    obtain hv | hv := List.mem_append.mp hv
    · exact stored_systemVariables facility p message v hv
    · exact (stored_eq_iff v).mpr (h v hv)

theorem getPriority_encode {m : MessageInternal}
    (h : m.vars = (systemVariables facility p message ++ vars).map stored) : m.getPriority = p := by
  have hsystem : (systemVariables facility p message ++ vars).map stored =
      systemVariables facility p message ++ vars.map stored := by
    rw [List.map_append, List.map_congr_left (stored_systemVariables facility p message), List.map_id']
  have hfacility : SystemVariable.facility ≠ SystemVariable.priority := by decide
  rw [getPriority, h, hsystem, systemVariables, List.cons_append, List.find?_cons_of_neg (by simpa using hfacility),
    List.cons_append, List.find?_cons_of_pos (by simp)]
  exact loadPriority_integerBytes p

/-- The message, the priority and the variables are those that were encoded. -/
structure Decodes (m : MessageInternal) : Prop where
  msg : m.msg = message
  priority : m.getPriority = p
  vars : m.vars = systemVariables facility p message ++ vars

/-- A message comes back as it was encoded exactly when the length of every name fits a word, and the last variable
that has the name of the message, if there is one, has its value too. -/
theorem ofEncoded_decodes_iff (hsize : (encode facility p message vars).encoded.length < 2 ^ 31) :
    Decodes facility p message vars (ofEncoded (encode facility p message vars).preEncoded) ↔
      (∀ v ∈ vars, v.name.length < 2 ^ 32) ∧
        ∀ v, (vars.filter fun v => v.name = SystemVariable.message).getLast? = some v → v.data = message := by
  rw [ofEncoded_encode facility p message vars hsize]
  have hmsg (hvars : (systemVariables facility p message ++ vars).map stored = systemVariables facility p message ++ vars) :
      lastMessage [] ((systemVariables facility p message ++ vars).map stored) = message ↔
        ∀ v, (vars.filter fun v => v.name = SystemVariable.message).getLast? = some v → v.data = message := by
    have hsystem : lastMessage [] (systemVariables facility p message ++ vars) = lastMessage message vars := by
      have hfacility : SystemVariable.facility ≠ SystemVariable.message := by decide
      have hpriority : SystemVariable.priority ≠ SystemVariable.message := by decide
      simp only [systemVariables, List.cons_append, List.nil_append, lastMessage_cons, if_neg hfacility,
        if_neg hpriority, if_pos]
    rw [hvars, hsystem, lastMessage_eq]
    cases (vars.filter fun v => v.name = SystemVariable.message).getLast? with
    | none => simp
    | some v => simp
  have hstored := map_stored_eq_iff facility p message vars
  have hpriority (m : MessageInternal) := getPriority_encode facility p message vars (m := m)
  generalize (systemVariables facility p message ++ vars).map stored = decoded at hmsg hstored hpriority ⊢
  constructor
  · intro h
    exact ⟨hstored.mp h.vars, (hmsg h.vars).mp h.msg⟩
  · rintro ⟨hnames, hlast⟩
    have hvars := hstored.mpr hnames
    exact ⟨(hmsg hvars).mpr hlast, hpriority _ rfl, hvars⟩

/-- A variable of five bytes behind an empty message. -/
def extraVariable (name : List Byte) : Variable := ⟨name, .string, [1, 2, 3, 4, 5]⟩

theorem length_encodeUnsigned_le (v : Nat) : (encodeUnsigned v).length ≤ v + 1 := by
  induction v using Nat.strongRecOn with
  | ind v ih =>
    by_cases hv : v < 128
    · rw [encodeUnsigned_of_lt hv]
      exact Nat.succ_le_succ (Nat.zero_le v)
    · have hdiv := ih (v / 128) (by omega)
      rw [encodeUnsigned_of_le (Nat.not_lt.mp hv), List.length_cons]
      omega

theorem length_variableBytes_le (v : Variable) :
    (variableBytes v).length ≤ 2 * (v.type.toNat + 2 * v.name.length + v.data.length) + 5 := by
  have htype := length_encodeUnsigned_le v.type.toNat
  have hname := length_encodeUnsigned_le v.name.length
  have hlength := length_encodeUnsigned_le (contentLength v % 2 ^ 64)
  have hmod := Nat.mod_le (contentLength v) (2 ^ 64)
  have hdata := Nat.mod_le v.data.length (2 ^ 32)
  simp only [variableBytes, contentLength, headerBytes, List.length_append] at *
  omega

theorem length_encode_extra {name : List Byte} (h : name.length < 100) :
    (encode [] Priority.info [] [extraVariable name]).encoded.length < 2 ^ 31 := by
  have hname : (extraVariable name).name.length = name.length := rfl
  have hextra : stored (extraVariable name) = extraVariable name := (stored_eq_iff _).mpr (by omega)
  have hfacility := length_variableBytes_le ⟨SystemVariable.facility, .string, []⟩
  have hpriority := length_variableBytes_le ⟨SystemVariable.priority, .signedInteger, integerBytes 1 0⟩
  have hmessage := length_variableBytes_le ⟨SystemVariable.message, .string, []⟩
  have hvariable := length_variableBytes_le (extraVariable name)
  obtain ⟨bytes, hbytes, hpre, hencoded⟩ := encode_eq [] Priority.info [] [extraVariable name]
  rw [hencoded, hpre, hbytes, List.map_append, List.map_congr_left (stored_systemVariables _ _ _), List.map_id',
    List.map_singleton, hextra]
  change _ ≤ 2 * (0 + 2 * 15 + 0) + 5 at hfacility
  change _ ≤ 2 * (1 + 2 * 15 + 1) + 5 at hpriority
  change _ ≤ 2 * (0 + 2 * 14 + 0) + 5 at hmessage
  change _ ≤ 2 * (0 + 2 * name.length + 5) + 5 at hvariable
  have hsize : integerBytes (signedSize (Priority.info.signExtend 64)) (Priority.info.signExtend 64) =
      integerBytes 1 0 := by
    decide
  have hzero := length_encodeUnsigned_le 0
  simp only [systemVariables, hsize, List.cons_append, List.nil_append, List.flatMap_cons, List.flatMap_nil,
    List.length_append, List.length_nil, length_integerBytes]
  omega

theorem ofEncoded_decodes_extra :
    Decodes [] Priority.info [] [extraVariable [7]]
      (ofEncoded (encode [] Priority.info [] [extraVariable [7]]).preEncoded) := by
  refine (ofEncoded_decodes_iff _ _ _ _ (length_encode_extra (by decide))).mpr ⟨?_, ?_⟩
  · intro v hv
    obtain rfl := List.mem_singleton.mp hv
    exact Nat.lt_of_sub_pos (by decide)
  · intro v hv
    cases hv

/-- A variable with the name of the message takes its place. -/
theorem ofEncoded_message_replaced :
    ¬ Decodes [] Priority.info [] [extraVariable SystemVariable.message]
      (ofEncoded (encode [] Priority.info [] [extraVariable SystemVariable.message]).preEncoded) := by
  rw [ofEncoded_encode _ _ _ _ (length_encode_extra (by decide))]
  intro h
  exact absurd h.msg (by decide)

end MessageInternal

end XviOs.Logger
