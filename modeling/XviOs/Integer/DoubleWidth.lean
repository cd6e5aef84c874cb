import Mathlib.Tactic

namespace XviOs.Integer

/-- The operations on integers of twice the width that a division needs. -/
structure DoubleWidth (W : Nat) (D : Type) where
  ofLow : BitVec W → D
  ofHigh : BitVec W → D
  shiftOne : D → D
  add : D → D → D
  sub : D → D → D
  isNegative : D → Bool
  high : D → BitVec W

/-- The type of twice the width is one of the compiler's. -/
def native (W : Nat) : DoubleWidth W (BitVec (W + W)) where
  ofLow num := num.setWidth (W + W)
  ofHigh denom := denom.setWidth (W + W) <<< W
  shiftOne r := r <<< 1
  add := (· + ·)
  sub := (· - ·)
  isNegative r := r.slt 0
  high r := (r >>> W).setWidth W

/-- `emulated_integer`, by its two parts. -/
structure SplitInt (W : Nat) where
  high : BitVec W
  low : BitVec W

namespace SplitInt

variable {W : Nat}

def addSplitEmul (a b : SplitInt W) : SplitInt W :=
  let low := a.low + b.low
  let high := a.high + b.high
  if low < a.low then ⟨high + 1, low⟩ else ⟨high, low⟩

def negateEmul (t : SplitInt W) : SplitInt W := addSplitEmul ⟨~~~t.high, ~~~t.low⟩ ⟨0, 1⟩

def subNegEmul (a b : SplitInt W) : SplitInt W := addSplitEmul a (negateEmul b)

def lshiftSplitEmul (t : SplitInt W) (count : Nat) : SplitInt W :=
  if count < W then ⟨t.high <<< count ||| t.low >>> (W - count), t.low <<< count⟩
  else ⟨t.low <<< (count - W), 0⟩

/-- The parts are compared, the signed high ones first. -/
def compareSplitEmul (a b : SplitInt W) : Int :=
  let high : Int := if a.high = b.high then 0 else if a.high.slt b.high then -1 else 1
  if high ≠ 0 then high else if a.low = b.low then 0 else if a.low < b.low then -1 else 1

/-- The number that the parts make. -/
def toNat (t : SplitInt W) : Nat := t.high.toNat * 2 ^ W + t.low.toNat

end SplitInt

/-- The type of twice the width is not one of the compiler's, and is made of two parts. -/
def emulated (W : Nat) : DoubleWidth W (SplitInt W) where
  ofLow num := ⟨0, num⟩
  ofHigh denom := ⟨denom, 0⟩
  shiftOne r := r.lshiftSplitEmul 1
  add := SplitInt.addSplitEmul
  sub := SplitInt.subNegEmul
  isNegative r := r.compareSplitEmul ⟨0, 0⟩ < 0
  high := SplitInt.high

/-- The operations are those of the numbers modulo the square of the word size. -/
structure Lawful {W : Nat} {D : Type} (dw : DoubleWidth W D) (val : D → Nat) : Prop where
  lt : ∀ a, val a < 2 ^ (W + W)
  ofLow : ∀ x, val (dw.ofLow x) = x.toNat
  ofHigh : ∀ x, val (dw.ofHigh x) = x.toNat * 2 ^ W
  shiftOne : ∀ a, val (dw.shiftOne a) = 2 * val a % 2 ^ (W + W)
  add : ∀ a b, val (dw.add a b) = (val a + val b) % 2 ^ (W + W)
  sub : ∀ a b, val (dw.sub a b) = (val a + (2 ^ (W + W) - val b)) % 2 ^ (W + W)
  isNegative : ∀ a, dw.isNegative a = decide (2 ^ (W + W) ≤ 2 * val a)
  high : ∀ a, (dw.high a).toNat = val a / 2 ^ W

section Lawful

variable {W : Nat}

theorem slt_zero {n : Nat} (a : BitVec n) : a.slt 0 = decide (2 ^ n ≤ 2 * a.toNat) := by
  rw [BitVec.slt, show (0 : BitVec n).toInt = 0 from BitVec.toInt_zero, BitVec.toInt_eq_toNat_cond]
  have hlt := a.isLt
  split
  · rw [decide_eq_false (by omega), decide_eq_false (by omega)]
  · rw [decide_eq_true (by omega), decide_eq_true (by omega)]

theorem native_lawful (W : Nat) : Lawful (native W) BitVec.toNat where
  lt a := a.isLt
  ofLow x := by
    change (x.setWidth (W + W)).toNat = _
    rw [BitVec.toNat_setWidth, Nat.mod_eq_of_lt]
    exact Nat.lt_of_lt_of_le x.isLt (Nat.pow_le_pow_right (by decide) (by omega))
  ofHigh x := by
    change (x.setWidth (W + W) <<< W).toNat = _
    have hlt : x.toNat * 2 ^ W < 2 ^ (W + W) := by
      rw [Nat.pow_add]
      exact Nat.mul_lt_mul_of_pos_right x.isLt (Nat.two_pow_pos W)
    have hlt' : x.toNat < 2 ^ (W + W) := Nat.lt_of_lt_of_le x.isLt (Nat.pow_le_pow_right (by decide) (by omega))
    rw [BitVec.toNat_shiftLeft, BitVec.toNat_setWidth, Nat.mod_eq_of_lt hlt', Nat.shiftLeft_eq, Nat.mod_eq_of_lt hlt]
  shiftOne a := by
    change (a <<< 1).toNat = _
    rw [BitVec.toNat_shiftLeft, Nat.shiftLeft_eq, Nat.pow_one, Nat.mul_comm]
  add a b := BitVec.toNat_add a b
  sub a b := by
    change (a - b).toNat = _
    rw [BitVec.toNat_sub, Nat.add_comm]
  isNegative a := slt_zero a
  high a := by
    change ((a >>> W).setWidth W).toNat = _
    rw [BitVec.toNat_setWidth, BitVec.toNat_ushiftRight, Nat.shiftRight_eq_div_pow, Nat.mod_eq_of_lt]
    apply Nat.div_lt_of_lt_mul
    rw [← Nat.pow_add]
    exact a.isLt

namespace SplitInt

theorem toNat_lt (t : SplitInt W) : t.toNat < 2 ^ (W + W) := by
  have hhigh : t.high.toNat * 2 ^ W + 2 ^ W ≤ 2 ^ W * 2 ^ W := by
    rw [← Nat.succ_mul]
    exact Nat.mul_le_mul_right _ t.high.isLt
  have hlow := t.low.isLt
  rw [toNat, Nat.pow_add]
  omega

theorem parts_mod {B x y : Nat} (hy : y < B) : (x * B + y) % (B * B) = x % B * B + y := by
  have hB : 0 < B := Nat.lt_of_le_of_lt (Nat.zero_le y) hy
  have hmod : (x * B + y) % B = y := by rw [Nat.mul_add_mod_self_right, Nat.mod_eq_of_lt hy]
  have hdiv : (x * B + y) / B = x := by
    rw [Nat.add_comm, Nat.add_mul_div_right _ _ hB, Nat.div_eq_of_lt hy, Nat.zero_add]
  rw [Nat.mod_mul, hmod, hdiv]
  ring

/-- A carry goes from the low part to the high part. -/
theorem toNat_addSplitEmul (a b : SplitInt W) : (addSplitEmul a b).toNat = (a.toNat + b.toNat) % 2 ^ (W + W) := by
  have ha := a.low.isLt
  have hb := b.low.isLt
  have hlow : (a.low + b.low).toNat = (a.low.toNat + b.low.toNat) % 2 ^ W := BitVec.toNat_add _ _
  have hsum : a.toNat + b.toNat = (a.high.toNat + b.high.toNat) * 2 ^ W + (a.low.toNat + b.low.toNat) := by
    rw [toNat, toNat]
    ring
  have hcarry : a.low + b.low < a.low ↔ 2 ^ W ≤ a.low.toNat + b.low.toNat := by
    rw [BitVec.lt_def, hlow]
    constructor
    · intro h
      by_contra hlt
      rw [Nat.mod_eq_of_lt (Nat.lt_of_not_le hlt)] at h
      omega
    · intro h
      rw [Nat.mod_eq_sub_mod h, Nat.mod_eq_of_lt (by omega)]
      omega
  rw [hsum, Nat.pow_add, addSplitEmul]
  by_cases h : 2 ^ W ≤ a.low.toNat + b.low.toNat
  · rw [if_pos (hcarry.mpr h), toNat, hlow, Nat.mod_eq_sub_mod h, Nat.mod_eq_of_lt (by omega)]
    have hhigh : (a.high + b.high + 1).toNat = (a.high.toNat + b.high.toNat + 1) % 2 ^ W := by
      rw [BitVec.toNat_add, BitVec.toNat_add, Nat.mod_add_mod,
        show (1 : BitVec W).toNat = 1 % 2 ^ W from BitVec.toNat_ofNat 1 W,
        Nat.add_mod_mod]
    have hshift : (a.high.toNat + b.high.toNat) * 2 ^ W + (a.low.toNat + b.low.toNat) =
        (a.high.toNat + b.high.toNat + 1) * 2 ^ W + (a.low.toNat + b.low.toNat - 2 ^ W) := by
      rw [Nat.succ_mul]
      omega
    rw [hhigh, hshift, parts_mod (by omega)]
  · rw [if_neg fun hc => h (hcarry.mp hc), toNat, hlow, Nat.mod_eq_of_lt (by omega), BitVec.toNat_add,
      parts_mod (by omega)]

theorem toNat_not (t : SplitInt W) : (⟨~~~t.high, ~~~t.low⟩ : SplitInt W).toNat = 2 ^ (W + W) - 1 - t.toNat := by
  have hh := t.high.isLt
  have hl := t.low.isLt
  have hsum : (2 ^ W - 1 - t.high.toNat) * 2 ^ W + t.high.toNat * 2 ^ W = 2 ^ W * 2 ^ W - 2 ^ W := by
    rw [← Nat.add_mul, Nat.sub_add_cancel (by omega), Nat.sub_one_mul]
  have hle : 2 ^ W ≤ 2 ^ W * 2 ^ W := Nat.le_mul_of_pos_left _ (Nat.two_pow_pos W)
  rw [toNat, toNat, BitVec.toNat_not, BitVec.toNat_not, Nat.pow_add]
  omega

theorem toNat_one (hW : 0 < W) : (⟨0, 1⟩ : SplitInt W).toNat = 1 := by
  have h0 : (0 : BitVec W).toNat = 0 := BitVec.toNat_zero
  have h1 : (1 : BitVec W).toNat = 1 := BitVec.toNat_one hW
  rw [toNat, h0, h1, Nat.zero_mul]

theorem toNat_negateEmul (hW : 0 < W) (t : SplitInt W) : (negateEmul t).toNat = (2 ^ (W + W) - t.toNat) % 2 ^ (W + W) := by
  have hlt := t.toNat_lt
  rw [negateEmul, toNat_addSplitEmul, toNat_not, toNat_one hW]
  congr 1
  omega

/-- The top bit of the low part goes to the high part. -/
theorem toNat_lshiftSplitEmul (hW : 1 < W) (t : SplitInt W) :
    (lshiftSplitEmul t 1).toNat = 2 * t.toNat % 2 ^ (W + W) := by
  obtain ⟨n, rfl⟩ : ∃ n, W = n + 1 := ⟨W - 1, by omega⟩
  have hh := t.high.isLt
  have hl := t.low.isLt
  have hB : 2 ^ (n + 1) = 2 * 2 ^ n := by rw [Nat.pow_succ, Nat.mul_comm]
  have hcarry : t.low.toNat / 2 ^ n < 2 ^ 1 := Nat.div_lt_of_lt_mul (by omega)
  have hlow : 2 * t.low.toNat = t.low.toNat / 2 ^ n * 2 ^ (n + 1) + 2 * (t.low.toNat % 2 ^ n) := by
    have hdiv := Nat.div_add_mod t.low.toNat (2 ^ n)
    rw [hB, ← Nat.mul_assoc, Nat.mul_comm _ 2, Nat.mul_assoc, ← Nat.mul_add, Nat.mul_comm (t.low.toNat / 2 ^ n), hdiv]
  have hrest : 2 * (t.low.toNat % 2 ^ n) < 2 ^ (n + 1) := by
    have := Nat.mod_lt t.low.toNat (Nat.two_pow_pos n)
    omega
  have hlow' : (t.low <<< 1).toNat = 2 * (t.low.toNat % 2 ^ n) := by
    rw [BitVec.toNat_shiftLeft, Nat.shiftLeft_eq, Nat.pow_one, Nat.mul_comm, hlow, Nat.mul_add_mod_self_right,
      Nat.mod_eq_of_lt hrest]
  have hhigh' : (t.high <<< 1 ||| t.low >>> (n + 1 - 1)).toNat =
      (2 * t.high.toNat + t.low.toNat / 2 ^ n) % 2 ^ (n + 1) := by
    rw [BitVec.toNat_or, BitVec.toNat_shiftLeft, BitVec.toNat_ushiftRight, Nat.shiftLeft_eq, Nat.pow_one,
      Nat.add_sub_cancel, Nat.shiftRight_eq_div_pow, hB, Nat.mul_comm t.high.toNat, Nat.mul_mod_mul_left,
      ← Nat.two_pow_add_eq_or_of_lt hcarry, Nat.pow_one]
    have hmod : (2 * t.high.toNat + t.low.toNat / 2 ^ n) % (2 * 2 ^ n) =
        2 * (t.high.toNat % 2 ^ n) + t.low.toNat / 2 ^ n := by
      rw [Nat.mod_mul, Nat.mul_add_mod, Nat.mod_eq_of_lt (show _ < 2 from hcarry), Nat.mul_add_div (by decide),
        Nat.div_eq_of_lt (show _ < 2 from hcarry), Nat.add_zero t.high.toNat]
      exact Nat.add_comm _ _
    exact hmod.symm
  have hsum : 2 * t.toNat = (2 * t.high.toNat + t.low.toNat / 2 ^ n) * 2 ^ (n + 1) + 2 * (t.low.toNat % 2 ^ n) := by
    rw [toNat, Nat.mul_add, hlow]
    ring
  rw [lshiftSplitEmul, if_pos hW, toNat, hlow', hhigh', hsum, Nat.pow_add 2 (n + 1) (n + 1), parts_mod hrest]

theorem compareSplitEmul_neg_iff (hW : 0 < W) (t : SplitInt W) :
    compareSplitEmul t ⟨0, 0⟩ < 0 ↔ 2 ^ (W + W) ≤ 2 * t.toNat := by
  obtain ⟨n, rfl⟩ : ∃ n, W = n + 1 := ⟨W - 1, by omega⟩
  have hl := t.low.isLt
  have hB : 2 ^ (n + 1) = 2 * 2 ^ n := by rw [Nat.pow_succ, Nat.mul_comm]
  have hhigh : compareSplitEmul t ⟨0, 0⟩ < 0 ↔ t.high.slt 0 = true := by
    rw [compareSplitEmul]
    by_cases h0 : t.high = 0
    · have hnot : ¬ t.low < 0 := BitVec.not_lt_zero
      have hzero : (0 : BitVec (n + 1)).slt 0 = false := by
        rw [slt_zero, show (0 : BitVec (n + 1)).toNat = 0 from BitVec.toNat_zero]
        exact decide_eq_false (Nat.not_le_of_lt (Nat.two_pow_pos (n + 1)))
      rw [h0, if_pos rfl, if_neg (fun h => h rfl), if_neg hnot, hzero]
      split <;> decide
    · rw [if_neg h0]
      by_cases hs : t.high.slt 0 = true
      · rw [if_pos hs, if_pos (by decide)]
        exact iff_of_true (by decide) hs
      · rw [if_neg hs, if_pos (by decide)]
        exact iff_of_false (by decide) hs
  have hparts : 2 ^ (n + 1) ≤ 2 * t.high.toNat ↔ 2 ^ (n + 1 + (n + 1)) ≤ 2 * t.toNat := by
    rw [toNat, Nat.pow_add 2 (n + 1) (n + 1)]
    constructor
    · intro h
      calc 2 ^ (n + 1) * 2 ^ (n + 1) ≤ 2 * t.high.toNat * 2 ^ (n + 1) := Nat.mul_le_mul_right _ h
        _ ≤ 2 * (t.high.toNat * 2 ^ (n + 1) + t.low.toNat) := by
          rw [Nat.mul_add, Nat.mul_assoc]
          exact Nat.le_add_right _ _
    · intro h
      by_contra hlt
      have hle : t.high.toNat + 1 ≤ 2 ^ n := by omega
      have hmul := Nat.mul_le_mul_right (2 ^ (n + 1)) hle
      have hsq : 2 ^ (n + 1) * 2 ^ (n + 1) = 2 * (2 ^ n * 2 ^ (n + 1)) := by
        rw [← Nat.mul_assoc 2, ← hB]
      rw [Nat.succ_mul] at hmul
      omega
  rw [hhigh, slt_zero, decide_eq_true_eq, hparts]

end SplitInt

theorem emulated_lawful (hW : 1 < W) : Lawful (emulated W) SplitInt.toNat where
  lt := SplitInt.toNat_lt
  ofLow x := by
    change (0 : BitVec W).toNat * 2 ^ W + x.toNat = x.toNat
    rw [show (0 : BitVec W).toNat = 0 from BitVec.toNat_zero, Nat.zero_mul, Nat.zero_add]
  ofHigh x := by
    change x.toNat * 2 ^ W + (0 : BitVec W).toNat = x.toNat * 2 ^ W
    rw [show (0 : BitVec W).toNat = 0 from BitVec.toNat_zero, Nat.add_zero]
  shiftOne := SplitInt.toNat_lshiftSplitEmul hW
  add := SplitInt.toNat_addSplitEmul
  sub a b := by
    change (SplitInt.addSplitEmul a (SplitInt.negateEmul b)).toNat = _
    rw [SplitInt.toNat_addSplitEmul, SplitInt.toNat_negateEmul (by omega), Nat.add_mod_mod]
  isNegative a := decide_eq_decide.mpr (SplitInt.compareSplitEmul_neg_iff (by omega) a)
  high a := by
    change a.high.toNat = (a.high.toNat * 2 ^ W + a.low.toNat) / 2 ^ W
    rw [Nat.add_comm, Nat.add_mul_div_right _ _ (Nat.two_pow_pos W), Nat.div_eq_of_lt a.low.isLt, Nat.zero_add]

end Lawful

end XviOs.Integer
