import Mathlib.Tactic
import XviOs.Library.ByteCoding

namespace XviOs.Dwarf

open Library.Leb128

/-- The left shift of an `int`. It is not defined for a count of 32 or more. -/
def lshiftInt (x : BitVec 32) (count : Nat) : Option (BitVec 32) := if count < 32 then some (x <<< count) else none

/-- The negation of an `int`. It is not defined for the least one. -/
def negateInt (x : BitVec 32) : Option (BitVec 32) := if x = BitVec.intMin 32 then none else some (-x)

/-- What the loop of a decoder leaves. -/
structure Decoded where
  value : BitVec 64
  shift : Nat
  b : BitVec 8
  ptr : List (BitVec 8)

/-- The loop of both decoders: the group is an `int`, and is shifted as one. -/
def decodeLoop : List (BitVec 8) → BitVec 64 → Nat → Option Decoded
  | [], _, _ => none
  | b :: ptr, value, shift =>
    match lshiftInt (b.setWidth 32 &&& 0x7f) shift with
    | none => none
    | some group =>
      if b &&& 0x80 = 0 then some ⟨value ||| group.signExtend 64, shift + 7, b, ptr⟩
      else decodeLoop ptr (value ||| group.signExtend 64) (shift + 7)

def decodeULEB128 (ptr : List (BitVec 8)) : Option (BitVec 64 × List (BitVec 8)) :=
  (decodeLoop ptr 0 0).map fun s => (s.value, s.ptr)

/-- The digits of an `intptr_t`. -/
def digits : Nat := 63

def signExtendDecoded (s : Decoded) : Option (BitVec 64) :=
  if s.shift < digits ∧ s.b &&& 0x40 ≠ 0 then
    ((lshiftInt 1 s.shift).bind negateInt).map fun bits => s.value ||| bits.signExtend 64
  else some s.value

def decodeSLEB128 (ptr : List (BitVec 8)) : Option (BitVec 64 × List (BitVec 8)) :=
  (decodeLoop ptr 0 0).bind fun s => (signExtendDecoded s).map fun value => (value, s.ptr)

/-- What the masks find in a byte with and without its high bit. -/
theorem byte_bits : ∀ g < 128,
    ((BitVec.ofNat 8 g).setWidth 32 &&& 0x7f = BitVec.ofNat 32 g ∧ BitVec.ofNat 8 g &&& 0x80 = 0) ∧
      ((BitVec.ofNat 8 (g + 128)).setWidth 32 &&& 0x7f = BitVec.ofNat 32 g ∧ BitVec.ofNat 8 (g + 128) &&& 0x80 ≠ 0) ∧
      (BitVec.ofNat 8 g &&& 0x40 ≠ 0 ↔ 64 ≤ g) := by
  decide +kernel

theorem byte_last {g : Nat} (hg : g < 128) :
    ((BitVec.ofNat 8 g).setWidth 32 &&& 0x7f) = BitVec.ofNat 32 g ∧ BitVec.ofNat 8 g &&& 0x80 = 0 :=
  (byte_bits g hg).1

theorem byte_more {g : Nat} (hg : g < 128) :
    ((BitVec.ofNat 8 (g + 128)).setWidth 32 &&& 0x7f) = BitVec.ofNat 32 g ∧ BitVec.ofNat 8 (g + 128) &&& 0x80 ≠ 0 :=
  (byte_bits g hg).2.1

theorem byte_sign {g : Nat} (hg : g < 128) : BitVec.ofNat 8 g &&& 0x40 ≠ 0 ↔ 64 ≤ g := (byte_bits g hg).2.2

/-- The bits of the groups below the `k`-th. -/
def lowBits (v : Int) (k : Nat) : BitVec 64 := BitVec.ofNat 64 (v % 128 ^ k).toNat

theorem toNat_lowBits {v : Int} {k : Nat} (hk : k ≤ 9) : (lowBits v k).toNat = (v % 128 ^ k).toNat := by
  have hnonneg : 0 ≤ v % 128 ^ k := Int.emod_nonneg _ (by positivity)
  have hlt : v % 128 ^ k < 128 ^ k := Int.emod_lt_of_pos _ (by positivity)
  have hle : (128 : Int) ^ k ≤ 128 ^ 9 := pow_le_pow_right₀ (by decide) hk
  rw [lowBits, BitVec.toNat_ofNat, Nat.mod_eq_of_lt]
  omega

theorem toNat_signExtend_int (x : BitVec 32) :
    (x.signExtend 64).toNat = if x.toNat < 2 ^ 31 then x.toNat else x.toNat + (2 ^ 64 - 2 ^ 32) := by
  have hx := x.isLt
  rw [BitVec.toNat_signExtend, BitVec.toNat_setWidth, BitVec.msb_eq_decide, Nat.mod_eq_of_lt (by omega)]
  by_cases h : x.toNat < 2 ^ 31
  · rw [if_pos h, if_neg (by simpa using h), Nat.add_zero]
  · rw [if_neg h, if_pos (by simpa using h)]

/-- A group that is shifted by less than 25 bits goes above the groups that are there. -/
theorem lowBits_succ (v : Int) {k : Nat} (hk : k ≤ 3) :
    lowBits v k ||| (BitVec.ofNat 32 (low (v / 128 ^ k)) <<< (7 * k)).signExtend 64 = lowBits v (k + 1) := by
  have hlow := low_lt (v / 128 ^ k)
  have hnonneg : 0 ≤ v % 128 ^ k := Int.emod_nonneg _ (by positivity)
  have hlt : v % 128 ^ k < 128 ^ k := Int.emod_lt_of_pos _ (by positivity)
  have hpow : 128 ^ k = 2 ^ (7 * k) := by rw [pow_mul, show 2 ^ 7 = 128 from rfl]
  have hmax : 128 ^ k * low (v / 128 ^ k) ≤ 128 ^ 3 * 127 :=
    Nat.mul_le_mul (Nat.pow_le_pow_right (by decide) hk) (by omega)
  have hshift : (BitVec.ofNat 32 (low (v / 128 ^ k)) <<< (7 * k)).toNat = 128 ^ k * low (v / 128 ^ k) := by
    rw [BitVec.toNat_shiftLeft, BitVec.toNat_ofNat, Nat.mod_eq_of_lt (a := low _) (by omega), Nat.shiftLeft_eq,
      ← hpow, Nat.mul_comm, Nat.mod_eq_of_lt (by omega)]
  have hsum : (v % 128 ^ k + 128 ^ k * low (v / 128 ^ k)).toNat = 128 ^ k * low (v / 128 ^ k) + (v % 128 ^ k).toNat := by
    rw [Int.toNat_add hnonneg (by positivity), Nat.add_comm]
    rfl
  have hsmall : (v % 128 ^ k).toNat < 2 ^ (7 * k) := by
    rw [← hpow, Int.toNat_lt hnonneg]
    exact_mod_cast hlt
  apply BitVec.eq_of_toNat_eq
  rw [BitVec.toNat_or, toNat_lowBits (by omega), toNat_lowBits (by omega), emod_pow_succ, toNat_signExtend_int, hshift,
    if_pos (by omega), hsum, hpow, Nat.two_pow_add_eq_or_of_lt hsmall, Nat.or_comm]

theorem decodeLoop_last {g : Nat} (hg : g < 128) (rest : List (BitVec 8)) (value : BitVec 64) {shift : Nat}
    (hs : shift < 32) :
    decodeLoop (BitVec.ofNat 8 g :: rest) value shift =
      some ⟨value ||| (BitVec.ofNat 32 g <<< shift).signExtend 64, shift + 7, BitVec.ofNat 8 g, rest⟩ := by
  rw [decodeLoop, (byte_last hg).1, lshiftInt, if_pos hs]
  exact if_pos (byte_last hg).2

theorem decodeLoop_more {g : Nat} (hg : g < 128) (rest : List (BitVec 8)) (value : BitVec 64) {shift : Nat}
    (hs : shift < 32) :
    decodeLoop (BitVec.ofNat 8 (g + 128) :: rest) value shift =
      decodeLoop rest (value ||| (BitVec.ofNat 32 g <<< shift).signExtend 64) (shift + 7) := by
  rw [decodeLoop, (byte_more hg).1, lshiftInt, if_pos hs]
  exact if_neg (byte_more hg).2

/-- No group is read that would be shifted out of an `int`. -/
theorem decodeLoop_undefined (bytes : List (BitVec 8)) (value : BitVec 64) {shift : Nat} (hs : 32 ≤ shift) :
    decodeLoop bytes value shift = none := by
  cases bytes with
  | nil => rfl
  | cons b ptr => rw [decodeLoop, lshiftInt, if_neg (by omega)]

/-- The first four groups are read one after another. -/
theorem decodeLoop_groups (v : Int) (rest : List (BitVec 8)) (m : Nat) {k : Nat} (hk : k ≤ 4) :
    decodeLoop (groups (m + k) v ++ rest) 0 0 = decodeLoop (groups m (v / 128 ^ k) ++ rest) (lowBits v k) (7 * k) := by
  induction k generalizing m with
  | zero =>
    have hzero : lowBits v 0 = 0 := by simp [lowBits]
    rw [hzero, pow_zero, Int.ediv_one]
    rfl
  | succ k ih =>
    have hdiv : v / 128 ^ k / 128 = v / 128 ^ (k + 1) := by
      rw [Int.ediv_ediv_of_nonneg (by positivity), pow_succ]
    rw [show m + (k + 1) = m + 1 + k by omega, ih (m + 1) (by omega), groups, List.cons_append,
      decodeLoop_more (low_lt _) _ _ (by omega), lowBits_succ v (by omega), hdiv]
    rfl

theorem decodeLoop_short (v : Int) (rest : List (BitVec 8)) {n : Nat} (hn : n ≤ 3) :
    decodeLoop (groups n v ++ rest) 0 0 =
      some ⟨lowBits v (n + 1), 7 * (n + 1), BitVec.ofNat 8 (low (v / 128 ^ n)), rest⟩ := by
  have hrun := decodeLoop_groups v rest 0 (k := n) (by omega)
  rw [Nat.zero_add] at hrun
  rw [hrun, groups, List.cons_append, List.nil_append, decodeLoop_last (low_lt _) _ _ (by omega), lowBits_succ v hn]
  rfl

/-- The bits of the fifth group that do not fit an `int` are lost, and the others are extended by their sign. -/
theorem decodeLoop_five (v : Int) (rest : List (BitVec 8)) :
    decodeLoop (groups 4 v ++ rest) 0 0 =
      some ⟨lowBits v 4 ||| (BitVec.ofNat 32 (low (v / 128 ^ 4)) <<< 28).signExtend 64, 35,
        BitVec.ofNat 8 (low (v / 128 ^ 4)), rest⟩ := by
  have hrun := decodeLoop_groups v rest 0 (k := 4) (by omega)
  rw [Nat.zero_add] at hrun
  rw [hrun, groups, List.cons_append, List.nil_append, decodeLoop_last (low_lt _) _ _ (by omega)]

theorem decodeLoop_long (v : Int) (rest : List (BitVec 8)) {n : Nat} (hn : 5 ≤ n) :
    decodeLoop (groups n v ++ rest) 0 0 = none := by
  obtain ⟨m, rfl⟩ : ∃ m, n = m + 1 + 4 := ⟨n - 5, by omega⟩
  rw [decodeLoop_groups v rest (m + 1) (k := 4) (by omega), groups, List.cons_append,
    decodeLoop_more (low_lt _) _ _ (by omega), decodeLoop_undefined _ _ (by omega)]

/-- The value of five groups is the sign extension of its low word. -/
theorem toNat_five (v : Int) :
    (lowBits v 4 ||| (BitVec.ofNat 32 (low (v / 128 ^ 4)) <<< 28).signExtend 64).toNat =
      (v % 2 ^ 32).toNat + if (v % 2 ^ 32).toNat < 2 ^ 31 then 0 else 2 ^ 64 - 2 ^ 32 := by
  have hshift : (BitVec.ofNat 32 (low (v / 128 ^ 4)) <<< 28).toNat = 2 ^ 28 * (low (v / 128 ^ 4) % 16) := by
    rw [BitVec.toNat_shiftLeft, BitVec.toNat_ofNat, Nat.shiftLeft_eq]
    have := low_lt (v / 128 ^ 4)
    omega
  have hword : (v % 2 ^ 32).toNat = 2 ^ 28 * (low (v / 128 ^ 4) % 16) + (v % 128 ^ 4).toNat := by
    rw [low]
    omega
  have hbits : (v % 128 ^ 4).toNat < 2 ^ 28 := by omega
  rw [BitVec.toNat_or, toNat_lowBits (by omega), toNat_signExtend_int, hshift, hword, Nat.or_comm]
  split
  · rw [← Nat.two_pow_add_eq_or_of_lt hbits, if_pos (by omega), Nat.add_zero]
  · rw [show 2 ^ 28 * (low (v / 128 ^ 4) % 16) + (2 ^ 64 - 2 ^ 32) = 2 ^ 28 * (low (v / 128 ^ 4) % 16 + (2 ^ 36 - 2 ^ 4)) by
        omega, ← Nat.two_pow_add_eq_or_of_lt hbits, if_neg (by omega)]
    omega

theorem decodeULEB128_eq_iff (v : BitVec 64) (rest : List (BitVec 8)) :
    decodeULEB128 (encodeUnsigned v.toNat ++ rest) = some (v, rest) ↔ v.toNat < 2 ^ 31 := by
  obtain ⟨n, hgroups, hlt, hle⟩ := encodeUnsigned_eq_groups v.toNat
  rw [hgroups, decodeULEB128]
  obtain hn | rfl | hn : n ≤ 3 ∨ n = 4 ∨ 5 ≤ n := by omega
  · have hpow : 128 ^ (n + 1) ≤ 128 ^ 4 := Nat.pow_le_pow_right (by decide) (by omega)
    have hvalue : lowBits v.toNat (n + 1) = v := by
      apply BitVec.eq_of_toNat_eq
      rw [toNat_lowBits (by omega), Int.emod_eq_of_lt (by positivity) (by exact_mod_cast hlt)]
      rfl
    rw [decodeLoop_short _ _ hn, Option.map_some, hvalue]
    exact iff_of_true rfl (by omega)
  · rw [decodeLoop_five, Option.map_some, Option.some_inj, Prod.mk.injEq, and_iff_left rfl, ← BitVec.toNat_inj, toNat_five]
    constructor
    · intro heq
      by_contra hbig
      split at heq <;> omega
    · intro hsmall
      rw [if_pos (by omega)]
      omega
  · obtain ⟨m, rfl⟩ : ∃ m, n = m + 1 := ⟨n - 1, by omega⟩
    have hpow : 128 ^ 5 ≤ 128 ^ (m + 1) := Nat.pow_le_pow_right (by decide) hn
    have hbig := hle m rfl
    rw [decodeLoop_long _ _ hn, Option.map_none]
    exact iff_of_false (by simp) (by omega)

/-- The bits from `s` on. -/
theorem negateInt_lshiftInt {s : Nat} (hs : s < 31) :
    ∃ bits, (lshiftInt 1 s).bind negateInt = some bits ∧ (bits.signExtend 64).toNat = 2 ^ 64 - 2 ^ s := by
  have hpow : 2 ^ s < 2 ^ 31 := Nat.pow_lt_pow_right (by decide) hs
  have hpos : 0 < 2 ^ s := Nat.two_pow_pos s
  have hone : ((1 : BitVec 32) <<< s).toNat = 2 ^ s := by
    rw [BitVec.toNat_shiftLeft, show (1 : BitVec 32).toNat = 1 from rfl, Nat.one_shiftLeft, Nat.mod_eq_of_lt (by omega)]
  have hmin : (1 : BitVec 32) <<< s ≠ BitVec.intMin 32 := by
    intro h
    rw [h, show (BitVec.intMin 32).toNat = 2 ^ 31 from rfl] at hone
    omega
  refine ⟨-((1 : BitVec 32) <<< s), ?_, ?_⟩
  · rw [lshiftInt, if_pos (by omega), Option.bind_some, negateInt, if_neg hmin]
  · rw [toNat_signExtend_int, BitVec.toNat_neg, hone, Nat.mod_eq_of_lt (by omega), if_neg (by omega)]
    omega

theorem sign_iff {v : Int} {n : Nat} (hlow : -64 * 128 ^ n ≤ v) (hhigh : v < 64 * 128 ^ n) :
    BitVec.ofNat 8 (low (v / 128 ^ n)) &&& 0x40 ≠ 0 ↔ v < 0 := by
  have hpos : (0 : Int) < 128 ^ n := by positivity
  have hge : -64 ≤ v / 128 ^ n := Int.le_ediv_of_mul_le hpos hlow
  have hlt : v / 128 ^ n < 64 := Int.ediv_lt_of_lt_mul hpos hhigh
  have hneg : 0 ≤ v / 128 ^ n ↔ 0 ≤ v := Int.ediv_nonneg_iff_of_pos hpos
  rw [byte_sign (low_lt _), low]
  omega

/-- The sign of a short encoding fills the bits above its groups. -/
theorem signExtendDecoded_short (v : BitVec 64) (rest : List (BitVec 8)) {n : Nat} (hn : n ≤ 3)
    (hlow : -64 * 128 ^ n ≤ v.toInt) (hhigh : v.toInt < 64 * 128 ^ n) :
    signExtendDecoded ⟨lowBits v.toInt (n + 1), 7 * (n + 1), BitVec.ofNat 8 (low (v.toInt / 128 ^ n)), rest⟩ = some v := by
  have hdouble : (128 : Int) ^ (n + 1) = 2 * (64 * 128 ^ n) := by ring
  have hv := BitVec.toInt_eq_toNat_cond v
  have hvlt := v.isLt
  rw [signExtendDecoded]
  by_cases hneg : v.toInt < 0
  · obtain ⟨bits, hbits, hvalue⟩ := negateInt_lshiftInt (s := 7 * (n + 1)) (by omega)
    have hpow : 128 ^ (n + 1) = 2 ^ (7 * (n + 1)) := by rw [pow_mul, show 2 ^ 7 = 128 from rfl]
    have hle : 2 ^ (7 * (n + 1)) ≤ 2 ^ 64 := Nat.pow_le_pow_right (by decide) (by omega)
    have hmod : v.toInt % 128 ^ (n + 1) = v.toInt + 128 ^ (n + 1) := by
      rw [← Int.add_emod_right, Int.emod_eq_of_lt (by omega) (by omega)]
    have hfactor : 2 ^ 64 - 2 ^ (7 * (n + 1)) = 2 ^ (7 * (n + 1)) * (2 ^ (64 - 7 * (n + 1)) - 1) := by
      rw [Nat.mul_sub_one, ← Nat.pow_add, Nat.add_sub_cancel' (by omega)]
    have hcast : ((128 ^ (n + 1) : Nat) : Int) = 128 ^ (n + 1) := by push_cast; rfl
    rw [if_pos ⟨show 7 * (n + 1) < 63 by omega, (sign_iff hlow hhigh).mpr hneg⟩, hbits, Option.map_some, Option.some_inj]
    apply BitVec.eq_of_toNat_eq
    rw [BitVec.toNat_or, toNat_lowBits (by omega), hvalue, hmod, Nat.or_comm, hfactor,
      ← Nat.two_pow_add_eq_or_of_lt (by omega), ← hfactor]
    omega
  · have hvalue : lowBits v.toInt (n + 1) = v := by
      apply BitVec.eq_of_toNat_eq
      rw [toNat_lowBits (by omega), Int.emod_eq_of_lt (by omega) (by omega)]
      omega
    rw [if_neg fun h => hneg ((sign_iff hlow hhigh).mp h.2), hvalue]

theorem decodeSLEB128_eq_iff (v : BitVec 64) (rest : List (BitVec 8)) :
    decodeSLEB128 (encodeSigned v.toInt ++ rest) = some (v, rest) ↔ -2 ^ 27 ≤ v.toInt ∧ v.toInt < 2 ^ 31 := by
  obtain ⟨n, hgroups, ⟨hlow, hhigh⟩, hout⟩ := encodeSigned_eq_groups v.toInt
  rw [hgroups, decodeSLEB128]
  obtain hn | rfl | hn : n ≤ 3 ∨ n = 4 ∨ 5 ≤ n := by omega
  · have hpow : (128 : Int) ^ n ≤ 128 ^ 3 := pow_le_pow_right₀ (by decide) hn
    rw [decodeLoop_short _ _ hn, Option.bind_some, signExtendDecoded_short v rest hn hlow hhigh]
    exact iff_of_true rfl (by omega)
  · have hbig := hout 3 rfl
    rw [decodeLoop_five, Option.bind_some, signExtendDecoded]
    by_cases hneg : v.toInt < 0
    · rw [if_pos ⟨show 35 < 63 by decide, (sign_iff hlow hhigh).mpr hneg⟩, lshiftInt,
        if_neg (show ¬ 35 < 32 by decide)]
      exact iff_of_false (by simp) (by omega)
    · have hv := BitVec.toInt_eq_toNat_cond v
      have hvlt := v.isLt
      rw [if_neg fun h => hneg ((sign_iff hlow hhigh).mp h.2), Option.map_some, Option.some_inj, Prod.mk.injEq,
        and_iff_left rfl, ← BitVec.toNat_inj, toNat_five]
      constructor
      · intro heq
        by_contra hwide
        split at heq <;> omega
      · intro hin
        rw [if_pos (by omega)]
        omega
  · obtain ⟨m, rfl⟩ : ∃ m, n = m + 1 := ⟨n - 1, by omega⟩
    have hpow : (128 : Int) ^ 4 ≤ 128 ^ m := pow_le_pow_right₀ (by decide) (by omega)
    have hbig := hout m rfl
    rw [decodeLoop_long _ _ hn, Option.bind_none]
    exact iff_of_false (by simp) (by omega)

/-- Both decoders give back what was encoded exactly for the numbers that an `int` holds with their groups. -/
theorem decode_encode_iff (v : BitVec 64) (rest : List (BitVec 8)) :
    (decodeULEB128 (encodeUnsigned v.toNat ++ rest) = some (v, rest) ↔ v.toNat < 2 ^ 31) ∧
      (decodeSLEB128 (encodeSigned v.toInt ++ rest) = some (v, rest) ↔ -2 ^ 27 ≤ v.toInt ∧ v.toInt < 2 ^ 31) :=
  ⟨decodeULEB128_eq_iff v rest, decodeSLEB128_eq_iff v rest⟩

/-- The number 2147483648 comes back with the high word set. -/
theorem decode_encode_wide :
    ¬ ((∀ (v : BitVec 64) rest, decodeULEB128 (encodeUnsigned v.toNat ++ rest) = some (v, rest)) ∧
      ∀ (v : BitVec 64) rest, decodeSLEB128 (encodeSigned v.toInt ++ rest) = some (v, rest)) := by
  rintro ⟨h, -⟩
  have hwide := h 2147483648 []
  have hbytes : encodeUnsigned (2147483648 : BitVec 64).toNat = [0x80, 0x80, 0x80, 0x80, 0x08] := by
    simp [encodeUnsigned]
  rw [hbytes] at hwide
  revert hwide
  decide +kernel

end XviOs.Dwarf
