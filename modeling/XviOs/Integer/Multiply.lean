import Mathlib.Tactic
import XviOs.Integer.Shift

namespace XviOs.Integer

variable {W : Nat}

/-- The multiplications of two halves, whose product has twice their width. -/
def mulx (a b : BitVec W) : BitVec (W + W) := a.setWidth (W + W) * b.setWidth (W + W)

def imulx (a b : BitVec W) : BitVec (W + W) := a.signExtend (W + W) * b.signExtend (W + W)

namespace SplitInt

def mulSplitEmul (a b : SplitInt W) : BitVec (W + W) :=
  let lls := mulx a.low b.low
  let lhs := (a.low * b.high).setWidth (W + W)
  let hls := (a.high * b.low).setWidth (W + W)
  lls + lhs <<< W + hls <<< W

/-- The four partial products have the type of the operands, and are widened from it: only the product of the two
high parts is a signed one for signed operands. -/
def mulxSplit (mulHigh : BitVec W → BitVec W → BitVec (W + W)) (widen : BitVec (W + W) → BitVec (W + W + (W + W)))
    (a b : SplitInt W) : BitVec (W + W + (W + W)) :=
  let lls := mulx a.low b.low
  let lhs := mulx a.low b.high
  let hls := mulx a.high b.low
  let hhs := mulHigh a.high b.high
  widen lls + widen lhs <<< W + widen hls <<< W + widen hhs <<< (W + W)

/-- For an unsigned type. -/
def mulxSplitEmul (a b : SplitInt W) : BitVec (W + W + (W + W)) := mulxSplit mulx (·.setWidth _) a b

/-- For a signed type. -/
def imulxSplitEmul (a b : SplitInt W) : BitVec (W + W + (W + W)) := mulxSplit imulx (·.signExtend _) a b

/-- What the multiplications should give. -/
structure MultipliesRight (a b : SplitInt W) : Prop where
  unsigned : (mulxSplitEmul a b).toNat = a.whole.toNat * b.whole.toNat
  signed : (imulxSplitEmul a b).toInt = a.whole.toInt * b.whole.toInt
  low : mulSplitEmul a b = a.whole * b.whole

/-- Whether the product of two unsigned halves is negative as a signed number. -/
def topBit (x y : BitVec W) : Nat := if 2 ^ (W + W) ≤ 2 * (x.toNat * y.toNat) then 1 else 0

/-- The low parts that the signs of the other operands should take off the product make up for the partial
products that are widened as negative numbers. -/
def SignsFit (a b : SplitInt W) : Prop :=
  (if b.high.slt 0 then a.low.toNat else 0) + (if a.high.slt 0 then b.low.toNat else 0) =
    topBit a.low b.low + 2 ^ W * (topBit a.low b.high + topBit a.high b.low)

section Halves

theorem mul_lt (x y : BitVec W) : x.toNat * y.toNat < 2 ^ (W + W) := by
  rw [Nat.pow_add]
  exact Nat.mul_lt_mul'' x.isLt y.isLt

theorem toNat_mulx (x y : BitVec W) : (mulx x y).toNat = x.toNat * y.toNat := by
  have hx : x.toNat < 2 ^ (W + W) := x.isLt.trans_le (Nat.pow_le_pow_right (by decide) (by omega))
  have hy : y.toNat < 2 ^ (W + W) := y.isLt.trans_le (Nat.pow_le_pow_right (by decide) (by omega))
  rw [mulx, BitVec.toNat_mul, BitVec.toNat_setWidth, BitVec.toNat_setWidth, Nat.mod_eq_of_lt hx, Nat.mod_eq_of_lt hy,
    Nat.mod_eq_of_lt (mul_lt x y)]

theorem toInt_mulx (x y : BitVec W) : (mulx x y).toInt = x.toNat * y.toNat - 2 ^ (W + W) * topBit x y := by
  have hlt := mul_lt x y
  rw [BitVec.toInt_eq_toNat_cond, toNat_mulx, topBit]
  split
  · rw [if_neg (by omega)]
    push_cast
    ring
  · rw [if_pos (by omega)]
    push_cast
    ring

/-- The signed product of two words fits twice their width. -/
theorem bmod_mul_toInt {n : Nat} (x y : BitVec n) : (x.toInt * y.toInt).bmod (2 ^ (n + n)) = x.toInt * y.toInt := by
  have hx : |2 * x.toInt| ≤ 2 ^ n := abs_le.mpr ⟨BitVec.le_two_mul_toInt, BitVec.two_mul_toInt_lt.le⟩
  have hy : |2 * y.toInt| ≤ 2 ^ n := abs_le.mpr ⟨BitVec.le_two_mul_toInt, BitVec.two_mul_toInt_lt.le⟩
  have hmul : |2 * x.toInt * (2 * y.toInt)| ≤ 2 ^ (n + n) := by
    rw [abs_mul, pow_add]
    exact mul_le_mul hx hy (abs_nonneg _) (by positivity)
  have hpos : (0 : Int) < 2 ^ (n + n) := by positivity
  have hfour : 2 * x.toInt * (2 * y.toInt) = 4 * (x.toInt * y.toInt) := by ring
  rw [hfour, abs_le] at hmul
  apply Int.bmod_eq_of_le_mul_two
  · push_cast
    omega
  · push_cast
    omega

theorem toInt_imulx (x y : BitVec W) : (imulx x y).toInt = x.toInt * y.toInt := by
  rw [imulx, BitVec.toInt_mul, BitVec.toInt_signExtend_of_le (by omega), BitVec.toInt_signExtend_of_le (by omega),
    bmod_mul_toInt]

end Halves

section Whole

theorem toNat_whole (t : SplitInt W) : t.whole.toNat = t.high.toNat * 2 ^ W + t.low.toNat := by
  rw [whole, BitVec.toNat_append, Nat.shiftLeft_eq, ← Nat.mul_comm (2 ^ W), ← Nat.two_pow_add_eq_or_of_lt t.low.isLt]

theorem toInt_whole (hW : 0 < W) (t : SplitInt W) : t.whole.toInt = 2 ^ W * t.high.toInt + t.low.toNat := by
  rw [whole, BitVec.toInt_append, if_neg (by simpa using hW.ne')]

theorem ofInt_shiftLeft (n : Nat) (i : Int) (k : Nat) : BitVec.ofInt n i <<< k = BitVec.ofInt n (i * 2 ^ k) := by
  have hpow : BitVec.ofInt n (2 ^ k) = BitVec.twoPow n k := by
    have hcast : (2 : Int) ^ k = (2 ^ k : Nat) := by push_cast; rfl
    apply BitVec.eq_of_toNat_eq
    rw [hcast, BitVec.ofInt_natCast, BitVec.toNat_ofNat, BitVec.toNat_twoPow]
  rw [BitVec.shiftLeft_eq_mul_twoPow, BitVec.ofInt_mul, hpow]

end Whole

section Truncating

theorem toNat_shifted_mul (x y : BitVec W) :
    ((x * y).setWidth (W + W) <<< W).toNat = x.toNat * y.toNat * 2 ^ W % 2 ^ (W + W) := by
  have hlt : x.toNat * y.toNat % 2 ^ W < 2 ^ (W + W) :=
    (Nat.mod_lt _ (Nat.two_pow_pos W)).trans_le (Nat.pow_le_pow_right (by decide) (by omega))
  rw [BitVec.toNat_shiftLeft, BitVec.toNat_setWidth, BitVec.toNat_mul, Nat.shiftLeft_eq, Nat.mod_eq_of_lt hlt,
    Nat.pow_add, Nat.mul_mod_mul_right, Nat.mod_mod, Nat.mul_mod_mul_right]

/-- The product of the two high halves does not reach the result. -/
theorem mulSplitEmul_eq (a b : SplitInt W) : mulSplitEmul a b = a.whole * b.whole := by
  apply BitVec.eq_of_toNat_eq
  have hsum : a.whole.toNat * b.whole.toNat =
      a.low.toNat * b.low.toNat + a.low.toNat * b.high.toNat * 2 ^ W + a.high.toNat * b.low.toNat * 2 ^ W +
        a.high.toNat * b.high.toNat * 2 ^ (W + W) := by
    rw [toNat_whole, toNat_whole, Nat.pow_add]
    ring
  rw [mulSplitEmul, BitVec.toNat_mul, hsum, Nat.add_mul_mod_self_right, BitVec.toNat_add, BitVec.toNat_add,
    toNat_shifted_mul, toNat_shifted_mul, toNat_mulx, Nat.add_mod_mod, Nat.add_mod_mod, Nat.mod_add_mod]

end Truncating

section Unsigned

theorem setWidth_mulx_shiftLeft (x y : BitVec W) (k : Nat) :
    (mulx x y).setWidth (W + W + (W + W)) <<< k = BitVec.ofNat _ (x.toNat * y.toNat * 2 ^ k) := by
  apply BitVec.eq_of_toNat_eq
  rw [BitVec.toNat_shiftLeft, BitVec.toNat_setWidth, toNat_mulx, BitVec.toNat_ofNat, Nat.shiftLeft_eq, Nat.mod_mul_mod]

theorem toNat_mulxSplitEmul (a b : SplitInt W) : (mulxSplitEmul a b).toNat = a.whole.toNat * b.whole.toNat := by
  have hsum : mulxSplitEmul a b = BitVec.ofNat _ (a.whole.toNat * b.whole.toNat) := by
    have hlow := setWidth_mulx_shiftLeft a.low b.low 0
    rw [BitVec.shiftLeft_zero] at hlow
    rw [mulxSplitEmul, mulxSplit, hlow, setWidth_mulx_shiftLeft, setWidth_mulx_shiftLeft, setWidth_mulx_shiftLeft,
      ← BitVec.ofNat_add,
      ← BitVec.ofNat_add, ← BitVec.ofNat_add, toNat_whole, toNat_whole, Nat.pow_add 2 W W]
    congr 1
    ring
  rw [hsum, BitVec.toNat_ofNat, Nat.mod_eq_of_lt (mul_lt _ _)]

end Unsigned

section Signed

/-- The signed result before it wraps. -/
def signedSum (a b : SplitInt W) : Int :=
  (a.low.toNat * b.low.toNat - 2 ^ (W + W) * topBit a.low b.low) +
    (a.low.toNat * b.high.toNat - 2 ^ (W + W) * topBit a.low b.high) * 2 ^ W +
    (a.high.toNat * b.low.toNat - 2 ^ (W + W) * topBit a.high b.low) * 2 ^ W +
    a.high.toInt * b.high.toInt * 2 ^ (W + W)

theorem imulxSplitEmul_eq (a b : SplitInt W) : imulxSplitEmul a b = BitVec.ofInt _ (signedSum a b) := by
  rw [imulxSplitEmul, mulxSplit, signedSum]
  dsimp only [BitVec.signExtend]
  rw [toInt_mulx, toInt_mulx, toInt_mulx, toInt_imulx, ofInt_shiftLeft, ofInt_shiftLeft, ofInt_shiftLeft,
    ← BitVec.ofInt_add, ← BitVec.ofInt_add, ← BitVec.ofInt_add]

/-- What the two sides of `SignsFit` differ by. -/
def signsError (a b : SplitInt W) : Int :=
  ((if b.high.slt 0 then a.low.toNat else 0 : Nat) + (if a.high.slt 0 then b.low.toNat else 0 : Nat) : Int) -
    (topBit a.low b.low + 2 ^ W * (topBit a.low b.high + topBit a.high b.low) : Nat)

theorem toInt_high (x : BitVec W) : x.toInt = x.toNat - 2 ^ W * (if x.slt 0 then 1 else 0 : Nat) := by
  rw [slt_zero, BitVec.toInt_eq_toNat_cond]
  by_cases h : 2 * x.toNat < 2 ^ W
  · rw [if_pos h, decide_eq_false (by omega)]
    push_cast
    ring
  · rw [if_neg h, decide_eq_true (by omega), if_pos rfl]
    push_cast
    ring

theorem signedSum_eq (hW : 0 < W) (a b : SplitInt W) :
    signedSum a b = a.whole.toInt * b.whole.toInt + 2 ^ (W + W) * signsError a b := by
  rw [signedSum, toInt_whole hW, toInt_whole hW, toInt_high, toInt_high, signsError, pow_add]
  split <;> split <;> push_cast <;> ring

theorem topBit_le (x y : BitVec W) : topBit x y ≤ 1 := by
  rw [topBit]
  split <;> decide

theorem signsError_lt (hW : 1 < W) (a b : SplitInt W) : |signsError a b| < 2 ^ (W + W) := by
  have ha := a.low.isLt
  have hb := b.low.isLt
  have hcarry := Nat.mul_le_mul_left (2 ^ W) (Nat.add_le_add (topBit_le a.low b.high) (topBit_le a.high b.low))
  have htop := topBit_le a.low b.low
  have hfour : 2 ^ 2 ≤ 2 ^ W := Nat.pow_le_pow_right (by decide) hW
  have hsq : 2 ^ W * 2 ^ 2 ≤ 2 ^ W * 2 ^ W := Nat.mul_le_mul_left _ hfour
  rw [← Nat.pow_add 2 W W] at hsq
  have hsq' : ((2 ^ (W + W) : Nat) : Int) = 2 ^ (W + W) := by push_cast; rfl
  rw [signsError, abs_lt, ← hsq']
  split <;> split <;> constructor <;> omega

theorem toInt_imulxSplitEmul_iff (hW : 1 < W) (a b : SplitInt W) :
    (imulxSplitEmul a b).toInt = a.whole.toInt * b.whole.toInt ↔ SignsFit a b := by
  have hfits : SignsFit a b ↔ signsError a b = 0 := by
    rw [SignsFit, signsError, sub_eq_zero, ← Nat.cast_add, Nat.cast_inj]
  have hP := bmod_mul_toInt a.whole b.whole
  rw [imulxSplitEmul_eq, BitVec.toInt_ofInt, signedSum_eq (by omega), hfits]
  constructor
  · intro h
    rw [← hP, Int.bmod_add_bmod, Int.bmod_eq_bmod_iff_bmod_sub_eq_zero, add_sub_cancel_left] at h
    have hdvd := Int.dvd_of_bmod_eq_zero h
    rw [Nat.pow_add, Nat.cast_mul] at hdvd
    push_cast at hdvd
    exact Int.eq_zero_of_abs_lt_dvd (Int.dvd_of_mul_dvd_mul_left (by positivity) hdvd) (signsError_lt hW a b)
  · intro h
    rw [h, mul_zero, add_zero, hP]

end Signed

end SplitInt

open SplitInt

/-- The unsigned products and the truncated one are right; the signed one is where the partial products do not
need the signs of the operands. -/
theorem multipliesRight_iff (hW : 1 < W) (a b : SplitInt W) : a.MultipliesRight b ↔ a.SignsFit b :=
  ⟨fun h => (toInt_imulxSplitEmul_iff hW a b).mp h.signed,
    fun h => ⟨toNat_mulxSplitEmul a b, (toInt_imulxSplitEmul_iff hW a b).mpr h, mulSplitEmul_eq a b⟩⟩

theorem multipliesRight_iff_max : (⟨0, 0xFFFF⟩ : SplitInt 16).MultipliesRight ⟨0, 3⟩ ↔
    (⟨0, 0xFFFF⟩ : SplitInt 16).SignsFit ⟨0, 3⟩ :=
  multipliesRight_iff (by decide) _ _

/-- Minus one by one. -/
theorem not_multipliesRight_neg_one : ¬ ∀ a b : SplitInt 32, a.MultipliesRight b := by
  intro h
  have hsigned := (h ⟨-1, -1⟩ ⟨0, 1⟩).signed
  revert hsigned
  decide +kernel

end XviOs.Integer
