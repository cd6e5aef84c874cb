import Mathlib.Data.Set.Function
import XviOs.Unicode.EncodeState

namespace XviOs.Unicode

/-! ## Sequences of bytes -/

/-- A byte that follows a lead byte. -/
def IsTrail (b : UInt8) : Prop := 0x80 ≤ b ∧ b ≤ 0xBF

/-- The well-formed sequences of bytes, by the rows of table 3-7 of the Unicode standard. -/
def WellFormed : List UInt8 → Prop
  | [a] => a ≤ 0x7F
  | [a, b] => (0xC2 ≤ a ∧ a ≤ 0xDF) ∧ IsTrail b
  | [a, b, c] =>
      (a = 0xE0 ∧ 0xA0 ≤ b ∧ b ≤ 0xBF ∨ (0xE1 ≤ a ∧ a ≤ 0xEC) ∧ IsTrail b ∨
        a = 0xED ∧ 0x80 ≤ b ∧ b ≤ 0x9F ∨ (0xEE ≤ a ∧ a ≤ 0xEF) ∧ IsTrail b) ∧ IsTrail c
  | [a, b, c, d] =>
      (a = 0xF0 ∧ 0x90 ≤ b ∧ b ≤ 0xBF ∨ (0xF1 ≤ a ∧ a ≤ 0xF3) ∧ IsTrail b ∨
        a = 0xF4 ∧ 0x80 ≤ b ∧ b ≤ 0x8F) ∧ IsTrail c ∧ IsTrail d
  | _ => False

/-- The call with the bytes of a sequence; those that it does not have are zero. -/
def utf8DecodeSequence (lead : UInt8) (tail : List UInt8) : Option UInt32 :=
  utf8Decode lead (tail.getD 0 0) (tail.getD 1 0) (tail.getD 2 0)

variable {lead a b c d t1 t2 t3 : UInt8} {tail : List UInt8} {code : UInt32}

/-- Bits below those of a shifted number are added to it. -/
theorem or_eq_add {x y : Nat} (k : Nat) (hy : y < 2 ^ k) : 2 ^ k * x ||| y = 2 ^ k * x + y :=
  (Nat.two_pow_add_eq_or_of_lt hy x).symm

theorem or_two (x : Nat) {y : Nat} (hy : y < 64) : 64 * x ||| y = 64 * x + y := or_eq_add 6 hy

theorem or_three (x : Nat) {y z : Nat} (hy : y < 64) (hz : z < 64) :
    4096 * x ||| 64 * y ||| z = 4096 * x + 64 * y + z := by
  have hor : 4096 * x ||| 64 * y = 4096 * x + 64 * y := or_eq_add 12 (by omega)
  calc 4096 * x ||| 64 * y ||| z = 64 * (64 * x + y) ||| z := by
        rw [hor]
        congr 1
        omega
    _ = 64 * (64 * x + y) + z := or_two _ hz
    _ = _ := by omega

theorem or_four (x : Nat) {y z w : Nat} (hy : y < 64) (hz : z < 64) (hw : w < 64) :
    262144 * x ||| 4096 * y ||| 64 * z ||| w = 262144 * x + 4096 * y + 64 * z + w := by
  have hor : 262144 * x ||| 4096 * y = 262144 * x + 4096 * y := or_eq_add 18 (by omega)
  calc 262144 * x ||| 4096 * y ||| 64 * z ||| w = 4096 * (64 * x + y) ||| 64 * z ||| w := by
        rw [hor]
        congr 2
        omega
    _ = 4096 * (64 * x + y) + 64 * z + w := or_three _ hz hw
    _ = _ := by omega

/-- The value of the bits that the bytes of a sequence hold. -/
def codeValue (len : Nat) (lead t1 t2 t3 : Nat) : Nat :=
  match len with
  | 1 => lead % 128
  | 2 => 64 * (lead % 32) + t1 % 64
  | 3 => 4096 * (lead % 16) + 64 * (t1 % 64) + t2 % 64
  | _ => 262144 * (lead % 8) + 4096 * (t1 % 64) + 64 * (t2 % 64) + t3 % 64

theorem toNat_mask (b mask : UInt8) (k : Nat) (hmask : mask.toNat = 2 ^ k - 1) :
    (b &&& mask).toUInt32.toNat = b.toNat % 2 ^ k := by
  rw [UInt8.toNat_toUInt32, UInt8.toNat_and, hmask, Nat.and_two_pow_sub_one_eq_mod]

theorem toNat_shifted (x k : UInt32) (hk : k.toNat < 32) (hx : x.toNat * 2 ^ k.toNat < 2 ^ 32) :
    (x <<< k).toNat = 2 ^ k.toNat * x.toNat := by
  rw [UInt32.toNat_shiftLeft, Nat.mod_eq_of_lt hk, Nat.shiftLeft_eq, Nat.mod_eq_of_lt hx, Nat.mul_comm]

theorem toNat_utf8Code (len : Nat) (lead t1 t2 t3 : UInt8) :
    (utf8Code len lead t1 t2 t3).toNat = codeValue len lead.toNat t1.toNat t2.toNat t3.toNat := by
  have h3f (b : UInt8) : (b &&& 0x3f).toUInt32.toNat = b.toNat % 64 := toNat_mask b 0x3f 6 rfl
  have h1f : (lead &&& 0x1f).toUInt32.toNat = lead.toNat % 32 := toNat_mask lead 0x1f 5 rfl
  have h0f : (lead &&& 0x0f).toUInt32.toNat = lead.toNat % 16 := toNat_mask lead 0x0f 4 rfl
  have h07 : (lead &&& 0x07).toUInt32.toNat = lead.toNat % 8 := toNat_mask lead 0x07 3 rfl
  have h6 (x : UInt32) (hx : x.toNat < 64) : (x <<< 6).toNat = 64 * x.toNat :=
    toNat_shifted x 6 (by decide) (by change _ * 64 < _; omega)
  have h12 (x : UInt32) (hx : x.toNat < 64) : (x <<< 12).toNat = 4096 * x.toNat :=
    toNat_shifted x 12 (by decide) (by change _ * 4096 < _; omega)
  have h18 (x : UInt32) (hx : x.toNat < 64) : (x <<< 18).toNat = 262144 * x.toNat :=
    toNat_shifted x 18 (by decide) (by change _ * 262144 < _; omega)
  have h64 (b : UInt8) : b.toNat % 64 < 64 := Nat.mod_lt _ (by decide)
  have hlong : (((lead &&& 0x07).toUInt32 <<< 18) ||| ((t1 &&& 0x3f).toUInt32 <<< 12) ||| ((t2 &&& 0x3f).toUInt32 <<< 6) |||
      (t3 &&& 0x3f).toUInt32).toNat =
      262144 * (lead.toNat % 8) + 4096 * (t1.toNat % 64) + 64 * (t2.toNat % 64) + t3.toNat % 64 := by
    rw [UInt32.toNat_or, UInt32.toNat_or, UInt32.toNat_or, h18 _ (by rw [h07]; omega), h12 _ (by rw [h3f]; omega),
      h6 _ (by rw [h3f]; omega), h07, h3f, h3f, h3f]
    exact or_four _ (h64 t1) (h64 t2) (h64 t3)
  match len with
  | 1 => exact toNat_mask lead 0x7f 7 rfl
  | 2 =>
    rw [utf8Code, UInt32.toNat_or, h6 _ (by rw [h1f]; omega), h1f, h3f]
    exact or_two _ (h64 t1)
  | 3 =>
    rw [utf8Code, UInt32.toNat_or, UInt32.toNat_or, h12 _ (by rw [h0f]; omega), h6 _ (by rw [h3f]; omega), h0f, h3f, h3f]
    exact or_three _ (h64 t1) (h64 t2)
  | 0 => exact hlong
  | _ + 4 => exact hlong

/-- What the checks of the decoder amount to. -/
theorem utf8Decode_eq_some_iff : utf8Decode lead t1 t2 t3 = some code ↔
    0 < utf8LengthFromLeadByte lead ∧
      (4 ≤ utf8LengthFromLeadByte lead → isUTF8ContinuationByte t3) ∧
      (3 ≤ utf8LengthFromLeadByte lead → isUTF8ContinuationByte t2) ∧
      (2 ≤ utf8LengthFromLeadByte lead → isUTF8ContinuationByte t1) ∧
      code = utf8Code (utf8LengthFromLeadByte lead) lead t1 t2 t3 ∧ isValidCodepoint code ∧
      utf8LengthFromCodepoint code = utf8LengthFromLeadByte lead := by
  rw [← isUTF8LeadByte_iff]
  unfold utf8Decode
  constructor
  · intro h
    split_ifs at h with h1 h2 h3 h4 h5 h6
    obtain rfl := Option.some.inj h
    exact ⟨h1, fun h => not_not.1 (not_and.1 h2 h), fun h => not_not.1 (not_and.1 h3 h),
      fun h => not_not.1 (not_and.1 h4 h), rfl, h5, not_not.1 h6⟩
  · rintro ⟨h1, h2, h3, h4, rfl, h5, h6⟩
    rw [if_neg (not_not.2 h1), if_neg (by tauto), if_neg (by tauto), if_neg (by tauto), if_neg (not_not.2 h5),
      if_neg (not_not.2 h6)]

theorem isValidCodepoint_iff (c : UInt32) :
    isValidCodepoint c = true ↔ c.toNat ≤ 0x10FFFF ∧ ¬ (0xD800 ≤ c.toNat ∧ c.toNat ≤ 0xDFFF) := by
  have hlast : c > lastValidCodepoint ↔ ¬ c.toNat ≤ 0x10FFFF := UInt32.lt_iff_toNat_lt.trans not_le.symm
  have hlead : leadSurrogateBegin.toUInt32 ≤ c ↔ 0xD800 ≤ c.toNat := UInt32.le_iff_toNat_le
  have htrail : c ≤ trailSurrogateEnd.toUInt32 ↔ c.toNat ≤ 0xDFFF := UInt32.le_iff_toNat_le
  simp only [isValidCodepoint, hlast, hlead, htrail]
  split_ifs <;> tauto

theorem utf8LengthFromCodepoint_eq (c : UInt32) : utf8LengthFromCodepoint c =
    if c.toNat < 0x80 then 1 else if c.toNat < 0x800 then 2 else if c.toNat < 0x10000 then 3
    else if c.toNat ≤ 0x10FFFF then 4 else 0 := by
  have hlt (n : UInt32) : (c < n) = (c.toNat < n.toNat) := propext UInt32.lt_iff_toNat_lt
  have hle (n : UInt32) : (c ≤ n) = (c.toNat ≤ n.toNat) := propext UInt32.le_iff_toNat_le
  unfold utf8LengthFromCodepoint
  simp only [hlt, hle]
  rfl

theorem isTrail_iff : IsTrail b ↔ 0x80 ≤ b.toNat ∧ b.toNat ≤ 0xBF :=
  and_congr UInt8.le_iff_toNat_le UInt8.le_iff_toNat_le

/-- The value that a sequence's bytes hold. -/
def scalarValue (l : List UInt8) : Nat :=
  codeValue l.length (l.getD 0 0).toNat (l.getD 1 0).toNat (l.getD 2 0).toNat (l.getD 3 0).toNat

/-- A code point of a known length. -/
theorem valid_length_iff (len : Nat) (c : UInt32) :
    isValidCodepoint c = true ∧ utf8LengthFromCodepoint c = len ↔
      len = 1 ∧ c.toNat < 0x80 ∨ len = 2 ∧ 0x80 ≤ c.toNat ∧ c.toNat < 0x800 ∨
      len = 3 ∧ (0x800 ≤ c.toNat ∧ c.toNat < 0x10000) ∧ ¬ (0xD800 ≤ c.toNat ∧ c.toNat ≤ 0xDFFF) ∨
      len = 4 ∧ 0x10000 ≤ c.toNat ∧ c.toNat ≤ 0x10FFFF := by
  rw [isValidCodepoint_iff, utf8LengthFromCodepoint_eq]
  split_ifs <;> omega

theorem lead_length_iff {len : Nat} (hlen : 0 < len) (b : UInt8) : utf8LengthFromLeadByte b = len ↔
    len = 1 ∧ b.toNat < 0x80 ∨ len = 2 ∧ 0xC0 ≤ b.toNat ∧ b.toNat < 0xE0 ∨
      len = 3 ∧ 0xE0 ≤ b.toNat ∧ b.toNat < 0xF0 ∨ len = 4 ∧ 0xF0 ≤ b.toNat ∧ b.toNat < 0xF8 := by
  rw [utf8LengthFromLeadByte_eq]
  split_ifs <;> omega

theorem wellFormed_one : WellFormed [a] ↔ utf8LengthFromLeadByte a = 1 := by
  have hle : a ≤ 0x7F ↔ a.toNat ≤ 0x7F := UInt8.le_iff_toNat_le
  rw [lead_length_iff (by decide), WellFormed, hle]
  omega

theorem wellFormed_two : WellFormed [a, b] ↔ utf8LengthFromLeadByte a = 2 ∧ isUTF8ContinuationByte b ∧
    0x80 ≤ scalarValue [a, b] ∧ scalarValue [a, b] < 0x800 := by
  have ha := a.toNat_lt
  rw [lead_length_iff (by decide), isUTF8ContinuationByte_iff]
  simp only [WellFormed, isTrail_iff, UInt8.le_iff_toNat_le, UInt8.reduceToNat, scalarValue, List.length,
    List.getD_cons_zero, List.getD_cons_succ, codeValue, Nat.reduceEqDiff, false_and, true_and, false_or, or_false]
  omega

theorem wellFormed_three : WellFormed [a, b, c] ↔
    utf8LengthFromLeadByte a = 3 ∧ (isUTF8ContinuationByte b ∧ isUTF8ContinuationByte c) ∧
      (0x800 ≤ scalarValue [a, b, c] ∧ scalarValue [a, b, c] < 0x10000) ∧
      ¬ (0xD800 ≤ scalarValue [a, b, c] ∧ scalarValue [a, b, c] ≤ 0xDFFF) := by
  rw [lead_length_iff (by decide), isUTF8ContinuationByte_iff, isUTF8ContinuationByte_iff]
  simp only [WellFormed, isTrail_iff, UInt8.le_iff_toNat_le, ← UInt8.toNat_inj, UInt8.reduceToNat, scalarValue,
    List.length, List.getD_cons_zero, List.getD_cons_succ, codeValue, Nat.reduceEqDiff, false_and, true_and, false_or,
    or_false]
  constructor
  · rintro ⟨h, hc⟩
    omega
  · rintro ⟨ha, hbc, hn⟩
    omega

theorem wellFormed_four : WellFormed [a, b, c, d] ↔
    utf8LengthFromLeadByte a = 4 ∧
      (isUTF8ContinuationByte b ∧ isUTF8ContinuationByte c ∧ isUTF8ContinuationByte d) ∧
      0x10000 ≤ scalarValue [a, b, c, d] ∧ scalarValue [a, b, c, d] ≤ 0x10FFFF := by
  rw [lead_length_iff (by decide), isUTF8ContinuationByte_iff, isUTF8ContinuationByte_iff, isUTF8ContinuationByte_iff]
  simp only [WellFormed, isTrail_iff, UInt8.le_iff_toNat_le, ← UInt8.toNat_inj, UInt8.reduceToNat, scalarValue,
    List.length, List.getD_cons_zero, List.getD_cons_succ, codeValue, Nat.reduceEqDiff, false_and, true_and, false_or]
  constructor
  · rintro ⟨h, hc⟩
    omega
  · rintro ⟨ha, hbc, hn⟩
    omega

/-- The bytes that the decoder takes are a row of the table. -/
theorem utf8Decode_eq_some_iff_wellFormed : utf8Decode lead t1 t2 t3 = some code ↔
    WellFormed [lead] ∧ code.toNat = scalarValue [lead] ∨
      WellFormed [lead, t1] ∧ code.toNat = scalarValue [lead, t1] ∨
      WellFormed [lead, t1, t2] ∧ code.toNat = scalarValue [lead, t1, t2] ∨
      WellFormed [lead, t1, t2, t3] ∧ code.toNat = scalarValue [lead, t1, t2, t3] := by
  have hle := utf8LengthFromLeadByte_le lead
  have hvalid := valid_length_iff (utf8LengthFromLeadByte lead) code
  have hone (h : utf8LengthFromLeadByte lead = 1) : scalarValue [lead] < 0x80 := by
    have hlead := (lead_length_iff (by decide) _).1 h
    change lead.toNat % 128 < 128
    omega
  rw [utf8Decode_eq_some_iff, hvalid, ← UInt32.toNat_inj, toNat_utf8Code, wellFormed_one, wellFormed_two,
    wellFormed_three, wellFormed_four]
  generalize utf8LengthFromLeadByte lead = len at *
  interval_cases len
  · simp
  · change _ ∧ _ ∧ _ ∧ _ ∧ code.toNat = scalarValue [lead] ∧ _ ↔ _
    have := hone rfl
    simp
    omega
  · change _ ∧ _ ∧ _ ∧ _ ∧ code.toNat = scalarValue [lead, t1] ∧ _ ↔ _
    grind
  · change _ ∧ _ ∧ _ ∧ _ ∧ code.toNat = scalarValue [lead, t1, t2] ∧ _ ↔ _
    grind
  · change _ ∧ _ ∧ _ ∧ _ ∧ code.toNat = scalarValue [lead, t1, t2, t3] ∧ _ ↔ _
    grind

theorem ofNat_eq {n : Nat} (hn : n = b.toNat) : UInt8.ofNat n = b := by rw [hn, UInt8.ofNat_toNat]

/-- The encoding of a sequence's value is the sequence. -/
theorem utf8EncodeChar_of_wellFormed {l : List UInt8} (hl : WellFormed l) (ch : Char)
    (hch : ch.val.toNat = scalarValue l) : String.utf8EncodeChar ch = l := by
  match l, hl with
  | [a], hl =>
    have ha := (lead_length_iff (by decide) _).1 (wellFormed_one.1 hl)
    have hval : ch.val.toNat = a.toNat % 128 := hch
    rw [String.utf8EncodeChar, if_pos (by omega), ofNat_eq (by omega : ch.val.toNat = a.toNat)]
  | [a, b], hl =>
    obtain ⟨ha, hb, hmin, hmax⟩ := wellFormed_two.1 hl
    have ha := (lead_length_iff (by decide) _).1 ha
    have hb := (isUTF8ContinuationByte_iff _).1 hb
    rw [← hch] at hmin hmax
    have hval : ch.val.toNat = 64 * (a.toNat % 32) + b.toNat % 64 := hch
    rw [String.utf8EncodeChar, if_neg (by omega), if_pos (by omega),
      ofNat_eq (by omega : ch.val.toNat / 64 % 0x20 + 0xc0 = a.toNat),
      ofNat_eq (by omega : ch.val.toNat % 0x40 + 0x80 = b.toNat)]
  | [a, b, c], hl =>
    obtain ⟨ha, ⟨hb, hc⟩, ⟨hmin, hmax⟩, _⟩ := wellFormed_three.1 hl
    have ha := (lead_length_iff (by decide) _).1 ha
    have hb := (isUTF8ContinuationByte_iff _).1 hb
    have hc := (isUTF8ContinuationByte_iff _).1 hc
    rw [← hch] at hmin hmax
    have hval : ch.val.toNat = 4096 * (a.toNat % 16) + 64 * (b.toNat % 64) + c.toNat % 64 := hch
    rw [String.utf8EncodeChar, if_neg (by omega), if_neg (by omega), if_pos (by omega),
      ofNat_eq (by omega : ch.val.toNat / 4096 % 0x10 + 0xe0 = a.toNat),
      ofNat_eq (by omega : ch.val.toNat / 64 % 0x40 + 0x80 = b.toNat),
      ofNat_eq (by omega : ch.val.toNat % 0x40 + 0x80 = c.toNat)]
  | [a, b, c, d], hl =>
    obtain ⟨ha, ⟨hb, hc, hd⟩, hmin, hmax⟩ := wellFormed_four.1 hl
    have ha := (lead_length_iff (by decide) _).1 ha
    have hb := (isUTF8ContinuationByte_iff _).1 hb
    have hc := (isUTF8ContinuationByte_iff _).1 hc
    have hd := (isUTF8ContinuationByte_iff _).1 hd
    rw [← hch] at hmin hmax
    have hval : ch.val.toNat = 262144 * (a.toNat % 8) + 4096 * (b.toNat % 64) + 64 * (c.toNat % 64) + d.toNat % 64 := hch
    rw [String.utf8EncodeChar, if_neg (by omega), if_neg (by omega), if_neg (by omega),
      ofNat_eq (by omega : ch.val.toNat / 262144 % 0x08 + 0xf0 = a.toNat),
      ofNat_eq (by omega : ch.val.toNat / 4096 % 0x40 + 0x80 = b.toNat),
      ofNat_eq (by omega : ch.val.toNat / 64 % 0x40 + 0x80 = c.toNat),
      ofNat_eq (by omega : ch.val.toNat % 0x40 + 0x80 = d.toNat)]

theorem toNat_ofNat {n : Nat} (hn : n < 256) : (UInt8.ofNat n).toNat = n := by
  rw [UInt8.toNat_ofNat', Nat.mod_eq_of_lt hn]

/-- The encoding of a scalar value is well-formed and holds the value. -/
theorem wellFormed_utf8EncodeChar (ch : Char) : WellFormed (String.utf8EncodeChar ch) ∧
    scalarValue (String.utf8EncodeChar ch) = ch.val.toNat := by
  have hch : ch.val.toNat < 0xD800 ∨ 0xDFFF < ch.val.toNat ∧ ch.val.toNat < 0x110000 := ch.valid
  rw [String.utf8EncodeChar]
  split_ifs with h1 h2 h3
  · have ha := toNat_ofNat (by omega : ch.val.toNat < 256)
    have hval : scalarValue [UInt8.ofNat ch.val.toNat] = ch.val.toNat := by
      change (UInt8.ofNat ch.val.toNat).toNat % 128 = _
      omega
    rw [wellFormed_one, lead_length_iff (by decide), hval, ha]
    omega
  · have ha := toNat_ofNat (by omega : ch.val.toNat / 64 % 0x20 + 0xc0 < 256)
    have hb := toNat_ofNat (by omega : ch.val.toNat % 0x40 + 0x80 < 256)
    rw [wellFormed_two, lead_length_iff (by decide), isUTF8ContinuationByte_iff]
    simp only [scalarValue, List.length, List.getD_cons_zero, List.getD_cons_succ, codeValue, ha, hb,
      Nat.reduceEqDiff, false_and, true_and, false_or, or_false]
    omega
  · have ha := toNat_ofNat (by omega : ch.val.toNat / 4096 % 0x10 + 0xe0 < 256)
    have hb := toNat_ofNat (by omega : ch.val.toNat / 64 % 0x40 + 0x80 < 256)
    have hc := toNat_ofNat (by omega : ch.val.toNat % 0x40 + 0x80 < 256)
    rw [wellFormed_three, lead_length_iff (by decide), isUTF8ContinuationByte_iff, isUTF8ContinuationByte_iff]
    simp only [scalarValue, List.length, List.getD_cons_zero, List.getD_cons_succ, codeValue, ha, hb, hc,
      Nat.reduceEqDiff, false_and, true_and, false_or, or_false]
    omega
  · have ha := toNat_ofNat (by omega : ch.val.toNat / 262144 % 0x08 + 0xf0 < 256)
    have hb := toNat_ofNat (by omega : ch.val.toNat / 4096 % 0x40 + 0x80 < 256)
    have hc := toNat_ofNat (by omega : ch.val.toNat / 64 % 0x40 + 0x80 < 256)
    have hd := toNat_ofNat (by omega : ch.val.toNat % 0x40 + 0x80 < 256)
    rw [wellFormed_four, lead_length_iff (by decide), isUTF8ContinuationByte_iff, isUTF8ContinuationByte_iff,
      isUTF8ContinuationByte_iff]
    simp only [scalarValue, List.length, List.getD_cons_zero, List.getD_cons_succ, codeValue, ha, hb, hc, hd,
      Nat.reduceEqDiff, false_and, true_and, false_or]
    omega

/-- The decoder takes a sequence of the table that the bytes start with. -/
theorem utf8DecodeSequence_eq_some_iff : utf8DecodeSequence lead tail = some code ↔
    ∃ l, WellFormed l ∧ l <+: lead :: tail ∧ code.toNat = scalarValue l := by
  have hzero : ¬ isUTF8ContinuationByte 0 := by decide
  rw [utf8DecodeSequence, utf8Decode_eq_some_iff_wellFormed]
  constructor
  · rintro (⟨h, hcode⟩ | ⟨h, hcode⟩ | ⟨h, hcode⟩ | ⟨h, hcode⟩)
    · exact ⟨_, h, ⟨tail, rfl⟩, hcode⟩
    · refine ⟨_, h, ?_, hcode⟩
      obtain _ | ⟨t1, tail⟩ := tail
      · exact absurd (wellFormed_two.1 h).2.1 hzero
      · exact ⟨tail, rfl⟩
    · refine ⟨_, h, ?_, hcode⟩
      obtain _ | ⟨t1, _ | ⟨t2, tail⟩⟩ := tail
      · exact absurd (wellFormed_three.1 h).2.1.1 hzero
      · exact absurd (wellFormed_three.1 h).2.1.2 hzero
      · exact ⟨tail, rfl⟩
    · refine ⟨_, h, ?_, hcode⟩
      obtain _ | ⟨t1, _ | ⟨t2, _ | ⟨t3, tail⟩⟩⟩ := tail
      · exact absurd (wellFormed_four.1 h).2.1.1 hzero
      · exact absurd (wellFormed_four.1 h).2.1.2.1 hzero
      · exact absurd (wellFormed_four.1 h).2.1.2.2 hzero
      · exact ⟨tail, rfl⟩
  · rintro ⟨l, hl, ⟨rest, hrest⟩, hcode⟩
    match l, hl with
    | [a], hl =>
      obtain ⟨rfl, rfl⟩ := List.cons.inj hrest
      exact Or.inl ⟨hl, hcode⟩
    | [a, b], hl =>
      obtain ⟨rfl, rfl⟩ := List.cons.inj hrest
      exact Or.inr (Or.inl ⟨hl, hcode⟩)
    | [a, b, c], hl =>
      obtain ⟨rfl, rfl⟩ := List.cons.inj hrest
      exact Or.inr (Or.inr (Or.inl ⟨hl, hcode⟩))
    | [a, b, c, d], hl =>
      obtain ⟨rfl, rfl⟩ := List.cons.inj hrest
      exact Or.inr (Or.inr (Or.inr ⟨hl, hcode⟩))

/-- Every sequence of the table is the encoding of the scalar value that it holds. -/
theorem exists_char_of_wellFormed {l : List UInt8} (hl : WellFormed l) :
    ∃ ch : Char, ch.val.toNat = scalarValue l ∧ String.utf8EncodeChar ch = l := by
  have hvalid : (scalarValue l).isValidChar := by
    match l, hl with
    | [a], hl =>
      left
      change a.toNat % 128 < _
      omega
    | [a, b], hl =>
      have := (wellFormed_two.1 hl).2.2
      left
      omega
    | [a, b, c], hl =>
      have := (wellFormed_three.1 hl).2.2
      unfold Nat.isValidChar
      omega
    | [a, b, c, d], hl =>
      have := (wellFormed_four.1 hl).2.2
      right
      omega
  exact ⟨Char.ofNatAux _ hvalid, rfl, utf8EncodeChar_of_wellFormed hl _ rfl⟩

/-! ## Pairs of units -/

def isUTF16LeadSurrogate (c : UInt16) : Bool := leadSurrogateBegin ≤ c ∧ c ≤ leadSurrogateEnd

def isUTF16TrailSurrogate (c : UInt16) : Bool := trailSurrogateBegin ≤ c ∧ c ≤ trailSurrogateEnd

def utf16Decode (lead trail : UInt16) : Option UInt32 :=
  if ¬ isUTF16LeadSurrogate lead ∨ ¬ isUTF16TrailSurrogate trail then none
  else some ((0x10000 : UInt32) + ((lead.toUInt32 &&& 0x3FF) <<< 10 ||| (trail.toUInt32 &&& 0x3FF)))

/-- The pairs of a high and a low surrogate. -/
def SurrogatePairs : Set (UInt16 × UInt16) :=
  {p | (0xD800 ≤ p.1.toNat ∧ p.1.toNat ≤ 0xDBFF) ∧ 0xDC00 ≤ p.2.toNat ∧ p.2.toNat ≤ 0xDFFF}

/-- The code points that need a pair. -/
def Supplementary : Set UInt32 := {c | 0x10000 ≤ c.toNat ∧ c.toNat ≤ 0x10FFFF}

variable {u v : UInt16}

theorem surrogatePairs_iff : (u, v) ∈ SurrogatePairs ↔
    (0xD800 ≤ u.toNat ∧ u.toNat ≤ 0xDBFF) ∧ 0xDC00 ≤ v.toNat ∧ v.toNat ≤ 0xDFFF := Iff.rfl

theorem mem_surrogatePairs : (u, v) ∈ SurrogatePairs ↔ isUTF16LeadSurrogate u ∧ isUTF16TrailSurrogate v := by
  rw [isUTF16LeadSurrogate, isUTF16TrailSurrogate, decide_eq_true_iff, decide_eq_true_iff]
  simp only [UInt16.le_iff_toNat_le]
  rfl

theorem utf16Decode_isSome_iff : (utf16Decode u v).isSome ↔ (u, v) ∈ SurrogatePairs := by
  rw [utf16Decode, mem_surrogatePairs]
  split_ifs with h
  · exact iff_of_false Bool.false_ne_true (not_and_or.2 h)
  · exact iff_of_true rfl (by tauto)

/-- A pair's value is of ten bits of each unit. -/
theorem utf16Decode_pair (h : (u, v) ∈ SurrogatePairs) :
    ∃ c, utf16Decode u v = some c ∧ c.toNat = 0x10000 + 0x400 * (u.toNat - 0xD800) + (v.toNat - 0xDC00) := by
  obtain ⟨⟨hu, hu'⟩, hv, hv'⟩ := surrogatePairs_iff.1 h
  have hmask (x : UInt16) : (x.toUInt32 &&& 0x3FF).toNat = x.toNat % 0x400 := by
    rw [UInt32.toNat_and]
    exact Nat.and_two_pow_sub_one_eq_mod x.toNat 10
  have hshift : ((u.toUInt32 &&& 0x3FF) <<< 10).toNat = 0x400 * (u.toNat % 0x400) := by
    rw [toNat_shifted _ 10 (by decide) (by rw [hmask]; change _ * 1024 < _; omega), hmask]
    rfl
  have hor : 0x400 * (u.toNat % 0x400) ||| v.toNat % 0x400 = 0x400 * (u.toNat % 0x400) + v.toNat % 0x400 :=
    or_eq_add 10 (by omega)
  refine ⟨_, if_neg (not_or_intro (not_not.2 (mem_surrogatePairs.1 h).1) (not_not.2 (mem_surrogatePairs.1 h).2)), ?_⟩
  rw [UInt32.toNat_add, UInt32.toNat_or, hshift, hmask, hor]
  change (0x10000 + _) % _ = _
  omega

theorem utf16Decode_bijOn :
    Set.BijOn (fun p => utf16Decode p.1 p.2) SurrogatePairs (some '' Supplementary) := by
  refine ⟨?_, ?_, ?_⟩
  · rintro ⟨u, v⟩ h
    obtain ⟨c, hc, hval⟩ := utf16Decode_pair h
    refine ⟨c, ?_, hc.symm⟩
    change 0x10000 ≤ c.toNat ∧ c.toNat ≤ 0x10FFFF
    have hpair := surrogatePairs_iff.1 h
    omega
  · rintro ⟨u, v⟩ h ⟨u', v'⟩ h' heq
    obtain ⟨c, hc, hval⟩ := utf16Decode_pair h
    obtain ⟨c', hc', hval'⟩ := utf16Decode_pair h'
    obtain rfl : c = c' := Option.some.inj (hc.symm.trans (heq.trans hc'))
    have hpair := surrogatePairs_iff.1 h
    have hpair' := surrogatePairs_iff.1 h'
    have hu : u.toNat = u'.toNat := by omega
    have hv : v.toNat = v'.toNat := by omega
    exact Prod.ext (UInt16.toNat_inj.1 hu) (UInt16.toNat_inj.1 hv)
  · rintro _ ⟨c, ⟨hmin, hmax⟩, rfl⟩
    have hu : (UInt16.ofNat (0xD800 + (c.toNat - 0x10000) / 0x400)).toNat = 0xD800 + (c.toNat - 0x10000) / 0x400 := by
      rw [UInt16.toNat_ofNat', Nat.mod_eq_of_lt (by omega)]
    have hv : (UInt16.ofNat (0xDC00 + (c.toNat - 0x10000) % 0x400)).toNat = 0xDC00 + (c.toNat - 0x10000) % 0x400 := by
      rw [UInt16.toNat_ofNat', Nat.mod_eq_of_lt (by omega)]
    have hmem : (UInt16.ofNat (0xD800 + (c.toNat - 0x10000) / 0x400),
        UInt16.ofNat (0xDC00 + (c.toNat - 0x10000) % 0x400)) ∈ SurrogatePairs := by
      rw [surrogatePairs_iff, hu, hv]
      omega
    obtain ⟨c', hc', hval⟩ := utf16Decode_pair hmem
    refine ⟨_, hmem, hc'.trans ?_⟩
    rw [hu, hv] at hval
    exact congrArg some (UInt32.toNat_inj.1 (by omega))

/-! ## What is decoded -/

/-- The sequences of bytes that the decoder takes start with a row of the table, and the pairs that it takes are those
of a high and a low surrogate. -/
theorem decode_correct :
    (∀ lead tail, ((utf8DecodeSequence lead tail).isSome ↔ ∃ l, WellFormed l ∧ l <+: lead :: tail) ∧
      ∀ code, utf8DecodeSequence lead tail = some code ↔
        ∃ ch : Char, ch.val = code ∧ String.utf8EncodeChar ch <+: lead :: tail) ∧
    (∀ u v, (utf16Decode u v).isSome ↔ (u, v) ∈ SurrogatePairs) ∧
    Set.BijOn (fun p => utf16Decode p.1 p.2) SurrogatePairs (some '' Supplementary) := by
  refine ⟨fun lead tail => ⟨?_, fun code => ?_⟩, fun u v => utf16Decode_isSome_iff, utf16Decode_bijOn⟩
  · rw [Option.isSome_iff_exists]
    constructor
    · rintro ⟨code, h⟩
      obtain ⟨l, hl, hpre, -⟩ := utf8DecodeSequence_eq_some_iff.1 h
      exact ⟨l, hl, hpre⟩
    · rintro ⟨l, hl, hpre⟩
      obtain ⟨ch, hval, -⟩ := exists_char_of_wellFormed hl
      exact ⟨ch.val, utf8DecodeSequence_eq_some_iff.2 ⟨l, hl, hpre, hval⟩⟩
  · rw [utf8DecodeSequence_eq_some_iff]
    constructor
    · rintro ⟨l, hl, hpre, hcode⟩
      obtain ⟨ch, hval, rfl⟩ := exists_char_of_wellFormed hl
      exact ⟨ch, UInt32.toNat_inj.1 (hval.trans hcode.symm), hpre⟩
    · rintro ⟨ch, rfl, hpre⟩
      obtain ⟨hl, hval⟩ := wellFormed_utf8EncodeChar ch
      exact ⟨_, hl, hpre, hval.symm⟩

/-- A byte behind a whole sequence is not looked at. -/
theorem utf8Decode_letter_behind : utf8DecodeSequence 0x41 [0x42] = some 0x41 ∧ ¬ WellFormed [0x41, 0x42] := by
  refine ⟨by decide +kernel, fun h => ?_⟩
  exact absurd (wellFormed_two.1 h).1 (by decide)

end XviOs.Unicode
