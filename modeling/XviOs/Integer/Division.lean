import Mathlib.Tactic
import XviOs.Integer.DoubleWidth

namespace XviOs.Integer

variable {W : Nat} {D : Type}

/-- `divide_result`. -/
structure DivideResult (W : Nat) where
  q : BitVec W
  r : BitVec W

/-- The divide from the high to the low bits, of which `i` are left. -/
def udivLoop (dw : DoubleWidth W D) (d : D) : Nat → BitVec W → D → BitVec W × D
  | 0, q, r => (q, r)
  | i + 1, q, r =>
    if dw.isNegative r then udivLoop dw d i (q ||| (0 : BitVec W) <<< i) (dw.add (dw.shiftOne r) d)
    else udivLoop dw d i (q ||| (1 : BitVec W) <<< i) (dw.sub (dw.shiftOne r) d)

def udivNonrestoringEmul (dw : DoubleWidth W D) (num denom : BitVec W) : DivideResult W :=
  let d := dw.ofHigh denom
  let bits := udivLoop dw d W 0 (dw.ofLow num)
  -- the bits stand for 1 and -1, and are made into 1 and 0
  let q := bits.1 - ~~~bits.1
  if dw.isNegative bits.2 then ⟨q - 1, dw.high (dw.add bits.2 d)⟩ else ⟨q, dw.high bits.2⟩

/-- What a division gives. -/
def IsDivision (num denom : BitVec W) (s : DivideResult W) : Prop :=
  num.toNat = s.q.toNat * denom.toNat + s.r.toNat ∧ s.r.toNat < denom.toNat

instance (num denom : BitVec W) (s : DivideResult W) : Decidable (IsDivision num denom s) :=
  inferInstanceAs (Decidable (_ ∧ _))

section Signed

variable {dw : DoubleWidth W D} {val : D → Nat}

/-- The signed number that has this value modulo the square of the word size. -/
def signed (W v : Nat) : Int := (v : Int).bmod (2 ^ (W + W))

theorem signed_cast (v : Nat) : signed W (v % 2 ^ (W + W)) = signed W v := by
  rw [signed, signed, Int.natCast_mod]
  exact Int.emod_bmod _ _

theorem signed_neg_iff {v : Nat} (hv : v < 2 ^ (W + W)) : signed W v < 0 ↔ 2 ^ (W + W) ≤ 2 * v := by
  have hmod : (v : Int) % (2 ^ (W + W) : Nat) = v := Int.emod_eq_of_lt (Int.natCast_nonneg v) (by exact_mod_cast hv)
  rw [signed, Int.bmod_def, hmod]
  split <;> omega

theorem signed_of_nonneg {v : Nat} (hv : v < 2 ^ (W + W)) (h : 0 ≤ signed W v) : signed W v = v := by
  have hmod : (v : Int) % (2 ^ (W + W) : Nat) = v := Int.emod_eq_of_lt (Int.natCast_nonneg v) (by exact_mod_cast hv)
  rw [signed, Int.bmod_def, hmod] at h ⊢
  split at h
  · rw [if_pos ‹_›]
  · omega

theorem Lawful.signed_add (h : Lawful dw val) (a b : D) :
    signed W (val (dw.add a b)) = (signed W (val a) + val b).bmod (2 ^ (W + W)) := by
  rw [h.add, signed_cast, signed, signed, Int.bmod_add_bmod, Nat.cast_add]

theorem Lawful.signed_sub (h : Lawful dw val) (a b : D) :
    signed W (val (dw.sub a b)) = (signed W (val a) - val b).bmod (2 ^ (W + W)) := by
  have hle := (h.lt b).le
  rw [h.sub, signed_cast, signed, signed, Int.bmod_sub_bmod, Nat.cast_add, Nat.cast_sub hle]
  rw [show ((val a : Int) + ((2 ^ (W + W) : Nat) - val b)) = val a - val b + (2 ^ (W + W) : Nat) by ring]
  exact Int.add_bmod_right _ _

theorem Lawful.signed_shiftOne (h : Lawful dw val) (a : D) :
    signed W (val (dw.shiftOne a)) = (2 * signed W (val a)).bmod (2 ^ (W + W)) := by
  rw [h.shiftOne, signed_cast, signed, signed, Int.mul_bmod_bmod, Nat.cast_mul, Nat.cast_ofNat]

theorem Lawful.isNegative_iff (h : Lawful dw val) (a : D) : dw.isNegative a = true ↔ signed W (val a) < 0 := by
  rw [h.isNegative, decide_eq_true_eq, signed_neg_iff (h.lt a)]

end Signed

section Loop

variable {dw : DoubleWidth W D} {val : D → Nat}

theorem toNat_zeroBit (q : BitVec W) (i : Nat) : (q ||| (0 : BitVec W) <<< i).toNat = q.toNat := by
  rw [BitVec.toNat_or, BitVec.toNat_shiftLeft, show (0 : BitVec W).toNat = 0 from BitVec.toNat_zero, Nat.zero_shiftLeft,
    Nat.zero_mod, Nat.or_zero]

theorem toNat_oneBit {q : BitVec W} {i p : Nat} (hi : i < W) (hq : q.toNat = p * 2 ^ (i + 1)) :
    (q ||| (1 : BitVec W) <<< i).toNat = (2 * p + 1) * 2 ^ i := by
  have hone : ((1 : BitVec W) <<< i).toNat = 2 ^ i := by
    rw [BitVec.toNat_shiftLeft, show (1 : BitVec W).toNat = 1 from BitVec.toNat_one (by omega), Nat.one_shiftLeft,
      Nat.mod_eq_of_lt (Nat.pow_lt_pow_right (by decide) hi)]
  have hlt : 2 ^ i < 2 ^ (i + 1) := Nat.pow_lt_pow_right (by decide) (Nat.lt_succ_self i)
  rw [BitVec.toNat_or, hone, hq, Nat.mul_comm p, ← Nat.two_pow_add_eq_or_of_lt hlt]
  ring

/-- What every step keeps, of the quotient's bits so far and of the remainder, holds at the end. -/
theorem udivLoop_rule (h : Lawful dw val) (d : D) {P : Nat → Nat → Int → Prop}
    (pos : ∀ i p R, i < W → P (i + 1) p R → 0 ≤ R → P i (2 * p + 1) ((2 * R - val d).bmod (2 ^ (W + W))))
    (neg : ∀ i p R, i < W → P (i + 1) p R → R < 0 → P i (2 * p) ((2 * R + val d).bmod (2 ^ (W + W))))
    {i p : Nat} {q : BitVec W} {r : D} (hi : i ≤ W) (hq : q.toNat = p * 2 ^ i) (hP : P i p (signed W (val r))) :
    P 0 (udivLoop dw d i q r).1.toNat (signed W (val (udivLoop dw d i q r).2)) := by
  induction i generalizing p q r with
  | zero =>
    rw [Nat.pow_zero, Nat.mul_one] at hq
    rw [udivLoop, hq]
    exact hP
  | succ i ih =>
    rw [udivLoop]
    split
    · next hneg =>
      apply ih (by omega) (p := 2 * p)
      · rw [toNat_zeroBit, hq, Nat.pow_succ]
        ring
      · rw [h.signed_add, h.signed_shiftOne, Int.bmod_add_bmod]
        exact neg i p _ (by omega) hP ((h.isNegative_iff r).mp hneg)
    · next hneg =>
      apply ih (by omega) (toNat_oneBit (by omega) hq)
      rw [h.signed_sub, h.signed_shiftOne, Int.bmod_sub_bmod]
      exact pos i p _ (by omega) hP (not_lt.mp fun hlt => hneg ((h.isNegative_iff r).mpr hlt))

/-- The remainder is that of the bits so far, which stand for 1 and -1. -/
def Remainder (W num D i p : Nat) (R : Int) : Prop :=
  ∃ k, k + i = W ∧ R = 2 ^ k * num - (2 * p + 1 - 2 ^ k) * D

theorem Remainder.pos {num D i p : Nat} {R : Int} (hR : Remainder W num D (i + 1) p R) :
    Remainder W num D i (2 * p + 1) (2 * R - D) := by
  obtain ⟨k, hk, rfl⟩ := hR
  refine ⟨k + 1, by omega, ?_⟩
  push_cast
  ring

theorem Remainder.neg {num D i p : Nat} {R : Int} (hR : Remainder W num D (i + 1) p R) :
    Remainder W num D i (2 * p) (2 * R + D) := by
  obtain ⟨k, hk, rfl⟩ := hR
  refine ⟨k + 1, by omega, ?_⟩
  push_cast
  ring

end Loop

section Result

variable {dw : DoubleWidth W D} {val : D → Nat}

/-- The division's loop. -/
def udivBits (dw : DoubleWidth W D) (num denom : BitVec W) : BitVec W × D :=
  udivLoop dw (dw.ofHigh denom) W 0 (dw.ofLow num)

theorem signed_num (hW : 0 < W) (num : BitVec W) : signed W num.toNat = num.toNat := by
  have hle : 2 ^ (W + 1) ≤ 2 ^ (W + W) := Nat.pow_le_pow_right (by decide) (by omega)
  have hnum := num.isLt
  rw [Nat.pow_succ] at hle
  apply signed_of_nonneg (by omega)
  apply not_lt.mp
  intro hneg
  have hbig := (signed_neg_iff (by omega)).mp hneg
  omega

theorem udivBits_rule (h : Lawful dw val) (num denom : BitVec W) (hW : 0 < W) {P : Nat → Nat → Int → Prop}
    (pos : ∀ i p R, i < W → P (i + 1) p R → 0 ≤ R →
      P i (2 * p + 1) ((2 * R - (denom.toNat * 2 ^ W : Nat)).bmod (2 ^ (W + W))))
    (neg : ∀ i p R, i < W → P (i + 1) p R → R < 0 →
      P i (2 * p) ((2 * R + (denom.toNat * 2 ^ W : Nat)).bmod (2 ^ (W + W))))
    (init : P W 0 num.toNat) :
    P 0 (udivBits dw num denom).1.toNat (signed W (val (udivBits dw num denom).2)) := by
  rw [← h.ofHigh] at pos neg
  apply udivLoop_rule h (dw.ofHigh denom) pos neg le_rfl
  · rw [Nat.zero_mul]
    exact BitVec.toNat_zero
  · rw [h.ofLow, signed_num hW]
    exact init

/-- Modulo the square of the word size, the remainder is always that of the bits. -/
theorem udivBits_remainder (h : Lawful dw val) (hW : 0 < W) (num denom : BitVec W) :
    ∃ R, Remainder W num.toNat (denom.toNat * 2 ^ W) 0 (udivBits dw num denom).1.toNat R ∧
      signed W (val (udivBits dw num denom).2) = R.bmod (2 ^ (W + W)) := by
  apply udivBits_rule h num denom hW
    (P := fun i p S => ∃ R, Remainder W num.toNat (denom.toNat * 2 ^ W) i p R ∧ S = R.bmod (2 ^ (W + W)))
  · rintro i p _ - ⟨R, hR, rfl⟩ -
    exact ⟨_, hR.pos, by rw [← Int.bmod_sub_bmod, Int.mul_bmod_bmod, Int.bmod_sub_bmod]⟩
  · rintro i p _ - ⟨R, hR, rfl⟩ -
    exact ⟨_, hR.neg, by rw [← Int.bmod_add_bmod, Int.mul_bmod_bmod, Int.bmod_add_bmod]⟩
  · exact ⟨num.toNat, ⟨0, by omega, by push_cast; ring⟩, (signed_num hW num).symm⟩

theorem Lawful.high_of_signed (h : Lawful dw val) {a : D} {z : Int}
    (ha : signed W (val a) = (2 ^ W * z).bmod (2 ^ (W + W))) : ((dw.high a).toNat : Int) = z % 2 ^ W := by
  have hmod : (val a : Int) % (2 ^ (W + W) : Nat) = (2 ^ W * z) % (2 ^ (W + W) : Nat) := by
    rw [← Int.bmod_emod, ← Int.bmod_emod (x := 2 ^ W * z), ← ha, signed]
  have hval : (val a : Int) % (2 ^ (W + W) : Nat) = val a :=
    Int.emod_eq_of_lt (Int.natCast_nonneg _) (by exact_mod_cast h.lt a)
  have hpow : ((2 ^ (W + W) : Nat) : Int) = 2 ^ W * 2 ^ W := by
    push_cast
    rw [pow_add]
  rw [hval, hpow, Int.mul_emod_mul_of_pos _ _ (by positivity)] at hmod
  rw [h.high]
  push_cast
  rw [hmod, Int.mul_ediv_cancel_left _ (by positivity)]

theorem toNat_digits (q : BitVec W) : (q - ~~~q).toNat = (2 * q.toNat + 1) % 2 ^ W := by
  have hq := q.isLt
  rw [BitVec.toNat_sub, BitVec.toNat_not]
  congr 1
  omega

theorem toNat_digits_sub_one (q : BitVec W) (hW : 0 < W) : (q - ~~~q - 1).toNat = 2 * q.toNat % 2 ^ W := by
  have hpos : 1 ≤ 2 ^ W := Nat.one_le_two_pow
  rw [BitVec.toNat_sub, toNat_digits, show (1 : BitVec W).toNat = 1 from BitVec.toNat_one hW, Nat.add_mod_mod,
    show 2 ^ W - 1 + (2 * q.toNat + 1) = 2 * q.toNat + 2 ^ W by omega, Nat.add_mod_right]

/-- The quotient that the bits stand for, corrected when the remainder is negative. -/
def quotient (W p : Nat) (S : Int) : Int := if S < 0 then 2 * p - 2 ^ W else 2 * p + 1 - 2 ^ W

theorem udivNonrestoringEmul_spec (h : Lawful dw val) (hW : 0 < W) (num denom : BitVec W) :
    let Q := quotient W (udivBits dw num denom).1.toNat (signed W (val (udivBits dw num denom).2))
    ((udivNonrestoringEmul dw num denom).q.toNat : Int) = Q % 2 ^ W ∧
      ((udivNonrestoringEmul dw num denom).r.toNat : Int) = (num.toNat - Q * denom.toNat) % 2 ^ W := by
  obtain ⟨_, ⟨k, hk, rfl⟩, hS⟩ := udivBits_remainder h hW num denom
  obtain rfl : k = W := by omega
  intro Q
  set b := udivBits dw num denom with hb
  have hrun : udivNonrestoringEmul dw num denom =
      if dw.isNegative b.2 then ⟨b.1 - ~~~b.1 - 1, dw.high (dw.add b.2 (dw.ofHigh denom))⟩
      else ⟨b.1 - ~~~b.1, dw.high b.2⟩ := rfl
  rw [hrun]
  by_cases hneg : signed k (val b.2) < 0
  · have hQ : Q = 2 * b.1.toNat - 2 ^ k := if_pos hneg
    rw [if_pos ((h.isNegative_iff b.2).mpr hneg), hQ]
    constructor
    · rw [toNat_digits_sub_one _ hW]
      push_cast
      exact (Int.sub_emod_right _ _).symm
    · apply h.high_of_signed
      rw [h.signed_add, hS, Int.bmod_add_bmod, h.ofHigh]
      congr 1
      push_cast
      ring
  · have hQ : Q = 2 * b.1.toNat + 1 - 2 ^ k := if_neg hneg
    rw [if_neg fun hn => hneg ((h.isNegative_iff b.2).mp hn), hQ]
    constructor
    · rw [toNat_digits]
      push_cast
      exact (Int.sub_emod_right _ _).symm
    · apply h.high_of_signed
      rw [hS]
      congr 1
      push_cast
      ring

/-- A remainder within the denominator is that of the right quotient. -/
theorem quotient_of_remainder {num denom p : Nat} {S : Int} (hS : Remainder W num (denom * 2 ^ W) 0 p S)
    (hlow : -(denom * 2 ^ W : Nat) ≤ S) (hhigh : S < (denom * 2 ^ W : Nat)) (hd : 0 < denom) (hnum : num < 2 ^ W) :
    quotient W p S % 2 ^ W = num / denom := by
  obtain ⟨k, hk, hS⟩ := hS
  obtain rfl : k = W := by omega
  have hS' : S = 2 ^ k * (num - (2 * p + 1 - 2 ^ k) * denom) := by
    rw [hS]
    push_cast
    ring
  have hpos : (0 : Int) < 2 ^ k := by positivity
  have hlow' : -(denom : Int) ≤ num - (2 * p + 1 - 2 ^ k) * denom := by
    apply le_of_mul_le_mul_left _ hpos
    rw [← hS']
    push_cast at hlow
    linarith
  have hhigh' : num - (2 * p + 1 - 2 ^ k) * denom < (denom : Int) := by
    apply lt_of_mul_lt_mul_left _ hpos.le
    rw [← hS']
    push_cast at hhigh
    linarith
  have hdiv : (num / denom : Int) = quotient k p S := by
    rw [Int.ediv_eq_iff_of_pos (by exact_mod_cast hd), quotient]
    split
    · next hneg =>
      have hneg' : num - (2 * p + 1 - 2 ^ k) * (denom : Int) < 0 := by
        rw [hS'] at hneg
        exact neg_of_mul_neg_right hneg hpos.le
      constructor <;> linarith
    · next hneg =>
      have hnonneg : 0 ≤ num - (2 * p + 1 - 2 ^ k) * (denom : Int) := by
        rw [hS', not_lt] at hneg
        exact nonneg_of_mul_nonneg_right hneg hpos
      constructor <;> linarith
  have hlt : num / denom < 2 ^ k := Nat.lt_of_le_of_lt (Nat.div_le_self _ _) hnum
  rw [← hdiv]
  exact Int.emod_eq_of_lt (by positivity) (by exact_mod_cast hlt)

theorem isDivision_iff_quotient (h : Lawful dw val) (hW : 0 < W) {num denom : BitVec W} (hd : denom ≠ 0) :
    IsDivision num denom (udivNonrestoringEmul dw num denom) ↔
      quotient W (udivBits dw num denom).1.toNat (signed W (val (udivBits dw num denom).2)) % 2 ^ W =
        num.toNat / denom.toNat := by
  obtain ⟨hq, hr⟩ := udivNonrestoringEmul_spec h hW num denom
  have hpos : 0 < denom.toNat := Nat.pos_of_ne_zero fun h0 => hd (BitVec.eq_of_toNat_eq (h0.trans BitVec.toNat_zero.symm))
  have hdlt := denom.isLt
  set s := udivNonrestoringEmul dw num denom
  set Q := quotient W (udivBits dw num denom).1.toNat (signed W (val (udivBits dw num denom).2))
  rw [← hq]
  constructor
  · rintro ⟨hnum, hlt⟩
    have hdiv : num.toNat / denom.toNat = s.q.toNat := by
      rw [hnum, Nat.mul_comm, Nat.mul_add_div hpos, Nat.div_eq_of_lt hlt, Nat.add_zero]
    exact_mod_cast hdiv.symm
  · intro heq
    have hq' : s.q.toNat = num.toNat / denom.toNat := by exact_mod_cast heq
    have hmod : (s.r.toNat : Int) = (num.toNat % denom.toNat : Nat) := by
      have hdm := Nat.div_add_mod num.toNat denom.toNat
      have hlt := Nat.mod_lt num.toNat hpos
      have hcast : (num.toNat : Int) = denom.toNat * (num.toNat / denom.toNat : Nat) + (num.toNat % denom.toNat : Nat) := by
        exact_mod_cast hdm.symm
      have hrest : (num.toNat : Int) - s.q.toNat * denom.toNat = (num.toNat % denom.toNat : Nat) := by
        rw [hq', Int.mul_comm]
        linarith
      have hcongr := ((Int.ModEq.refl (num.toNat : Int)).sub ((Int.mod_modEq Q (2 ^ W)).mul_right denom.toNat)).eq
      rw [hr, ← hcongr, ← hq, hrest]
      exact Int.emod_eq_of_lt (Int.natCast_nonneg _) (by exact_mod_cast hlt.trans hdlt)
    have hr' : s.r.toNat = num.toNat % denom.toNat := by exact_mod_cast hmod
    constructor
    · rw [hq', hr', Nat.mul_comm, Nat.div_add_mod]
    · rw [hr']
      exact Nat.mod_lt _ hpos

/-- While the remainder stays within the denominator, no step overflows. -/
theorem isDivision_of_le (h : Lawful dw val) (hW : 0 < W) {num denom : BitVec W} (hd : denom ≠ 0)
    (hle : denom.toNat ≤ 2 ^ (W - 1)) : IsDivision num denom (udivNonrestoringEmul dw num denom) := by
  have hpos : 0 < denom.toNat := Nat.pos_of_ne_zero fun h0 => hd (BitVec.eq_of_toNat_eq (h0.trans BitVec.toNat_zero.symm))
  have hsq : (denom.toNat * 2 ^ W : Nat) * 2 ≤ 2 ^ (W + W) := by
    have hhalf : 2 ^ (W + W) = 2 ^ (W - 1) * 2 ^ W * 2 := by
      rw [← Nat.pow_add, ← Nat.pow_succ]
      congr 1
      omega
    rw [hhalf]
    exact Nat.mul_le_mul_right 2 (Nat.mul_le_mul_right _ hle)
  obtain ⟨hrem, hlow, hhigh⟩ := udivBits_rule h num denom hW
    (P := fun i p S => Remainder W num.toNat (denom.toNat * 2 ^ W) i p S ∧
      -(denom.toNat * 2 ^ W : Nat) ≤ S ∧ S < (denom.toNat * 2 ^ W : Nat))
    (by
      rintro i p S - ⟨hS, hlow, hhigh⟩ hnonneg
      rw [Int.bmod_eq_of_le_mul_two (by omega) (by omega)]
      exact ⟨hS.pos, by omega, by omega⟩)
    (by
      rintro i p S - ⟨hS, hlow, hhigh⟩ hneg
      rw [Int.bmod_eq_of_le_mul_two (by omega) (by omega)]
      exact ⟨hS.neg, by omega, by omega⟩)
    (by
      have hnum : num.toNat < denom.toNat * 2 ^ W := Nat.lt_of_lt_of_le num.isLt (Nat.le_mul_of_pos_left _ hpos)
      exact ⟨⟨0, by omega, by push_cast; ring⟩, by omega, by omega⟩)
  rw [isDivision_iff_quotient h hW hd]
  apply quotient_of_remainder hrem hlow hhigh hpos num.isLt

theorem denom_sq (hW : 0 < W) : 2 ^ (W + W) = 2 * (2 ^ (W - 1) * 2 ^ W) := by
  rw [← Nat.pow_add, ← Nat.pow_succ']
  congr 1
  omega

theorem half_double (hW : 0 < W) : 2 ^ W = 2 * 2 ^ (W - 1) := by
  rw [← Nat.pow_succ']
  congr 1
  omega

/-- The one denominator over half the word size for which the first remainder does not overflow. -/
theorem isDivision_of_half_succ (h : Lawful dw val) (hW : 1 < W) {num denom : BitVec W}
    (hdenom : denom.toNat = 2 ^ (W - 1) + 1) (hnum : 2 ^ (W - 1) ≤ num.toNat) :
    IsDivision num denom (udivNonrestoringEmul dw num denom) := by
  have hd : denom ≠ 0 := by
    rintro rfl
    exact absurd (hdenom.symm.trans BitVec.toNat_zero) (Nat.succ_ne_zero _)
  have hlt := num.isLt
  have hhalf := half_double (show 0 < W by omega)
  have hsq := denom_sq (show 0 < W by omega)
  have hD : denom.toNat * 2 ^ W = 2 ^ (W - 1) * 2 ^ W + 2 ^ W := by rw [hdenom, Nat.succ_mul]
  have hM : 2 ^ W ≤ 2 ^ (W - 1) * 2 ^ W := Nat.le_mul_of_pos_left _ (Nat.two_pow_pos _)
  have hbits := udivBits_rule h num denom (show 0 < W by omega)
    (P := fun i p S => (i = W ∧ p = 0 ∧ S = num.toNat) ∨
      ∃ k, k + 1 + i = W ∧ p = 2 ^ k ∧ S = (2 ^ (k + 1) * num.toNat : Nat) - (denom.toNat * 2 ^ W : Nat))
    (by
      rintro i p S hi (⟨hiW, rfl, rfl⟩ | ⟨k, hk, rfl, rfl⟩) hnonneg
      · rw [Int.bmod_eq_of_le_mul_two (by omega) (by omega)]
        refine Or.inr ⟨0, by omega, rfl, ?_⟩
        push_cast
        ring
      · exfalso
        have hle : 2 ^ (k + 1) * num.toNat ≤ 2 ^ (W - 1) * 2 ^ W :=
          Nat.mul_le_mul (Nat.pow_le_pow_right (by decide) (by omega)) hlt.le
        omega)
    (by
      rintro i p S hi (⟨hiW, rfl, rfl⟩ | ⟨k, hk, rfl, rfl⟩) hneg
      · omega
      · have hdouble : 2 ^ (k + 1 + 1) * num.toNat = 2 * (2 ^ (k + 1) * num.toNat) := by
          rw [Nat.pow_succ]
          ring
        have hlow : 1 * num.toNat ≤ 2 ^ (k + 1) * num.toNat := Nat.mul_le_mul_right _ Nat.one_le_two_pow
        have hhigh : 2 ^ (k + 1 + 1) * num.toNat ≤ 2 ^ W * num.toNat :=
          Nat.mul_le_mul_right _ (Nat.pow_le_pow_right (by decide) (by omega))
        have hmax : 2 ^ W * num.toNat ≤ 2 ^ W * (2 ^ W - 1) := Nat.mul_le_mul_left _ (by omega)
        rw [Nat.mul_sub_one, ← Nat.pow_add] at hmax
        rw [Int.bmod_eq_of_le_mul_two (by omega) (by omega)]
        refine Or.inr ⟨k + 1, by omega, Nat.pow_succ'.symm, ?_⟩
        rw [hdouble]
        push_cast
        ring)
    (Or.inl ⟨rfl, rfl, rfl⟩)
  rw [isDivision_iff_quotient h (by omega) hd]
  obtain ⟨h0, -⟩ | ⟨k, hk, hp, hS⟩ := hbits
  · omega
  obtain rfl : W = k + 1 := by omega
  rw [hp, hS, quotient]
  have hcast : (2 * (2 ^ k : Nat) : Int) = 2 ^ (k + 1) := by
    push_cast
    ring
  by_cases hcmp : num.toNat < denom.toNat
  · have hneg : ((2 ^ (k + 1) * num.toNat : Nat) : Int) - (denom.toNat * 2 ^ (k + 1) : Nat) < 0 := by
      have := Nat.mul_lt_mul_of_pos_left hcmp (Nat.two_pow_pos (k + 1))
      rw [Nat.mul_comm denom.toNat]
      omega
    rw [if_pos hneg, hcast, sub_self, Int.zero_emod, Int.ediv_eq_zero_of_lt (by positivity) (by exact_mod_cast hcmp)]
  · have hnonneg : ¬ ((2 ^ (k + 1) * num.toNat : Nat) : Int) - (denom.toNat * 2 ^ (k + 1) : Nat) < 0 := by
      have := Nat.mul_le_mul_left (2 ^ (k + 1)) (not_lt.mp hcmp)
      rw [Nat.mul_comm denom.toNat]
      omega
    have hone : (num.toNat / denom.toNat : Int) = 1 := by
      rw [Int.ediv_eq_iff_of_pos (by omega)]
      omega
    rw [if_neg hnonneg, hcast, add_sub_cancel_left, hone]
    exact Int.emod_eq_of_lt (by decide) (by exact_mod_cast Nat.one_lt_two_pow (by omega))

/-- For every other denominator over half the word size, the first two bits of the quotient are set. -/
theorem not_isDivision_of_overflow (h : Lawful dw val) (hW : 1 < W) {num denom : BitVec W}
    (hdenom : 2 ^ (W - 1) < denom.toNat) (hnot : ¬ (denom.toNat = 2 ^ (W - 1) + 1 ∧ 2 ^ (W - 1) ≤ num.toNat)) :
    ¬ IsDivision num denom (udivNonrestoringEmul dw num denom) := by
  have hd : denom ≠ 0 := by
    rintro rfl
    exact absurd (hdenom.trans_eq BitVec.toNat_zero) (Nat.not_lt_zero _)
  have hlt := num.isLt
  have hdlt := denom.isLt
  have hhalf := half_double (show 0 < W by omega)
  have hsq := denom_sq (show 0 < W by omega)
  have hM : 2 ^ W ≤ 2 ^ (W - 1) * 2 ^ W := Nat.le_mul_of_pos_left _ (Nat.two_pow_pos _)
  have hDlt : denom.toNat * 2 ^ W + 2 ^ W ≤ 2 ^ W * 2 ^ W := by
    rw [← Nat.succ_mul]
    exact Nat.mul_le_mul_right _ hdlt
  have hover : 2 ^ (W - 1) * 2 ^ W + 2 * num.toNat < denom.toNat * 2 ^ W := by
    by_cases hone : denom.toNat = 2 ^ (W - 1) + 1
    · have hnum : num.toNat < 2 ^ (W - 1) := not_le.mp fun hle => hnot ⟨hone, hle⟩
      rw [hone, Nat.succ_mul (2 ^ (W - 1))]
      omega
    · have hmul := Nat.mul_le_mul_right (2 ^ W) (show 2 ^ (W - 1) + 2 ≤ denom.toNat by omega)
      rw [Nat.add_mul] at hmul
      omega
  have hbits := udivBits_rule h num denom (show 0 < W by omega)
    (P := fun i p S => (i = W ∧ p = 0 ∧ S = num.toNat) ∨ (i + 1 = W ∧ p = 1 ∧ 0 ≤ S) ∨
      ∃ k, k + 2 + i = W ∧ 3 * 2 ^ k ≤ p)
    (by
      rintro i p S hi (⟨hiW, rfl, rfl⟩ | ⟨hiW, rfl, hS⟩ | ⟨k, hk, hp⟩) hnonneg
      · -- the doubled numerator less the denominator is below every number of twice the width
        rw [← Nat.pow_add] at hDlt
        refine Or.inr (Or.inl ⟨hiW, rfl, ?_⟩)
        rw [← Int.add_bmod_right, Int.bmod_eq_of_le_mul_two (by omega) (by omega)]
        omega
      · exact Or.inr (Or.inr ⟨0, by omega, by omega⟩)
      · refine Or.inr (Or.inr ⟨k + 1, by omega, ?_⟩)
        rw [Nat.pow_succ]
        omega)
    (by
      rintro i p S hi (⟨hiW, rfl, rfl⟩ | ⟨hiW, rfl, hS⟩ | ⟨k, hk, hp⟩) hneg
      · omega
      · omega
      · refine Or.inr (Or.inr ⟨k + 1, by omega, ?_⟩)
        rw [Nat.pow_succ]
        omega)
    (Or.inl ⟨rfl, rfl, rfl⟩)
  rw [isDivision_iff_quotient h (by omega) hd]
  obtain ⟨h0, -⟩ | ⟨h1, -⟩ | ⟨k, hk, hp⟩ := hbits
  · omega
  · omega
  obtain rfl : W = k + 2 := by omega
  have hplt := (udivBits dw num denom).1.isLt
  set p := (udivBits dw num denom).1.toNat
  set S := signed (k + 2) (val (udivBits dw num denom).2)
  have hpow : (2 ^ (k + 2) : Int) = 4 * (2 ^ k : Nat) := by
    push_cast
    ring
  have hk0 := Nat.two_pow_pos k
  have hQ : 2 * (2 ^ k : Nat) ≤ quotient (k + 2) p S ∧ quotient (k + 2) p S < 4 * (2 ^ k : Nat) := by
    rw [Nat.pow_add] at hplt
    rw [quotient, hpow]
    split <;> omega
  have hdiv : (num.toNat / denom.toNat : Int) < 2 := by
    rw [Int.ediv_lt_iff_lt_mul (by omega)]
    omega
  rw [hpow, Int.emod_eq_of_lt (by omega) hQ.2]
  omega

/-- The denominators for which the remainder fits the signed type of twice the width. -/
def RemainderFits (num denom : BitVec W) : Prop :=
  denom.toNat ≤ 2 ^ (W - 1) ∨ denom.toNat = 2 ^ (W - 1) + 1 ∧ 2 ^ (W - 1) ≤ num.toNat

theorem Lawful.isDivision_iff (h : Lawful dw val) (hW : 1 < W) (num : BitVec W) {denom : BitVec W} (hd : denom ≠ 0) :
    IsDivision num denom (udivNonrestoringEmul dw num denom) ↔ RemainderFits num denom := by
  constructor
  · intro hdiv
    by_contra hnot
    obtain ⟨hlt, hone⟩ := not_or.mp hnot
    exact not_isDivision_of_overflow h hW (not_le.mp hlt) hone hdiv
  · rintro (hle | ⟨hone, hnum⟩)
    · exact isDivision_of_le h (by omega) hd hle
    · exact isDivision_of_half_succ h hW hone hnum

end Result

/-- Whether the type of twice the width is one of the compiler's or is made of two parts, the division is right
exactly when the remainder fits it. -/
theorem udivNonrestoringEmul_iff (hW : 1 < W) (num denom : BitVec W) (hd : denom ≠ 0) :
    (IsDivision num denom (udivNonrestoringEmul (native W) num denom) ↔ RemainderFits num denom) ∧
      (IsDivision num denom (udivNonrestoringEmul (emulated W) num denom) ↔ RemainderFits num denom) :=
  ⟨(native_lawful W).isDivision_iff hW num hd, (emulated_lawful hW).isDivision_iff hW num hd⟩

theorem udivNonrestoringEmul_seven_by_two :
    (IsDivision (7 : BitVec 32) 2 (udivNonrestoringEmul (native 32) 7 2) ↔ RemainderFits (7 : BitVec 32) 2) ∧
      (IsDivision (7 : BitVec 32) 2 (udivNonrestoringEmul (emulated 32) 7 2) ↔ RemainderFits (7 : BitVec 32) 2) :=
  udivNonrestoringEmul_iff (by decide) 7 2 (by decide)

/-- One divided by the largest number. -/
theorem udivNonrestoringEmul_one_by_max :
    ¬ ∀ num denom : BitVec 32, denom ≠ 0 →
      IsDivision num denom (udivNonrestoringEmul (native 32) num denom) ∧
        IsDivision num denom (udivNonrestoringEmul (emulated 32) num denom) := by
  intro h
  have hmax := (h 1 0xFFFFFFFF (by decide)).1
  revert hmax
  decide +kernel

end XviOs.Integer

namespace XviOs.Integer

variable {W : Nat} {D : Type}

/-- The signs are taken off the operands, and the results get theirs back. Two's-complement negation wraps at
the most negative number, which is its own magnitude. -/
def idivNonrestoringEmul (dw : DoubleWidth W D) (num denom : BitVec W) : DivideResult W :=
  let nnum := num.slt 0
  let ndenom := denom.slt 0
  let unum := if nnum then -num else num
  let udenom := if ndenom then -denom else denom
  let s := udivNonrestoringEmul dw unum udenom
  ⟨if nnum != ndenom then -s.q else s.q, if nnum then -s.r else s.r⟩

/-- What a signed division gives: the quotient is truncated toward zero, and wraps if it does not fit. -/
structure IsSignedDivision (num denom : BitVec W) (s : DivideResult W) : Prop where
  quotient : s.q.toInt = (num.toInt.tdiv denom.toInt).bmod (2 ^ W)
  whole : num = s.q * denom + s.r
  magnitude : s.r.toInt.natAbs < denom.toInt.natAbs
  sign : (0 ≤ num.toInt → 0 ≤ s.r.toInt) ∧ (num.toInt ≤ 0 → s.r.toInt ≤ 0)

section Unsigned

variable {num denom : BitVec W}

theorem IsDivision.q_eq {s : DivideResult W} (h : IsDivision num denom s) : s.q = num / denom := by
  obtain ⟨hnum, hlt⟩ := h
  apply BitVec.eq_of_toNat_eq
  rw [BitVec.toNat_udiv, hnum, Nat.mul_comm, Nat.mul_add_div (by omega), Nat.div_eq_of_lt hlt, Nat.add_zero]

theorem IsDivision.r_eq {s : DivideResult W} (h : IsDivision num denom s) : s.r = num % denom := by
  obtain ⟨hnum, hlt⟩ := h
  apply BitVec.eq_of_toNat_eq
  rw [BitVec.toNat_umod, hnum, Nat.mul_add_mod_self_right, Nat.mod_eq_of_lt hlt]

theorem slt_zero_eq_msb (a : BitVec W) : a.slt 0 = a.msb := by
  rw [slt_zero, BitVec.msb_eq_decide]
  cases W with
  | zero => rw [BitVec.eq_nil a]; rfl
  | succ n =>
    rw [Nat.add_sub_cancel, Nat.pow_succ]
    exact decide_eq_decide.mpr (by omega)

/-- The magnitude of a number is at most half the word size. -/
theorem magnitude_le (hW : 0 < W) (a : BitVec W) : (if a.slt 0 then -a else a).toNat ≤ 2 ^ (W - 1) := by
  have hhalf := half_double hW
  rw [slt_zero]
  split
  · next h =>
    have hle := of_decide_eq_true h
    rw [BitVec.toNat_neg]
    exact (Nat.mod_le _ _).trans (by omega)
  · next h =>
    have hlt := of_decide_eq_false (Bool.not_eq_true _ ▸ h)
    omega

theorem magnitude_ne_zero (hd : denom ≠ 0) : (if denom.slt 0 then -denom else denom) ≠ 0 := by
  split
  · exact fun h => hd (BitVec.neg_eq_zero_iff.mp h)
  · exact hd

end Unsigned

section Signed

variable {dw : DoubleWidth W D} {val : D → Nat}

/-- No magnitude overflows the remainder, so that both results are those of the signed operations. -/
theorem idivNonrestoringEmul_eq (h : Lawful dw val) (hW : 0 < W) (num : BitVec W) {denom : BitVec W} (hd : denom ≠ 0) :
    idivNonrestoringEmul dw num denom = ⟨num.sdiv denom, num.srem denom⟩ := by
  have hdiv : IsDivision (if num.slt 0 then -num else num) (if denom.slt 0 then -denom else denom)
      (udivNonrestoringEmul dw _ _) :=
    isDivision_of_le h hW (magnitude_ne_zero hd) (magnitude_le hW denom)
  rw [idivNonrestoringEmul]
  rw [hdiv.q_eq, hdiv.r_eq, slt_zero_eq_msb, slt_zero_eq_msb, BitVec.sdiv_eq, BitVec.srem_eq]
  cases num.msb <;> cases denom.msb <;> rfl

theorem isSignedDivision_sdiv (num : BitVec W) {denom : BitVec W} (hd : denom ≠ 0) :
    IsSignedDivision num denom ⟨num.sdiv denom, num.srem denom⟩ := by
  have hd' : denom.toInt ≠ 0 := fun h => hd (BitVec.toInt_inj.mp (h.trans BitVec.toInt_zero.symm))
  refine ⟨BitVec.toInt_sdiv num denom, ?_, ?_, ?_⟩
  · apply BitVec.toInt_inj.mp
    rw [BitVec.toInt_add, BitVec.toInt_mul, BitVec.toInt_sdiv, BitVec.toInt_srem, Int.bmod_mul_bmod,
      Int.bmod_add_bmod, Int.mul_comm, Int.mul_tdiv_add_tmod]
    exact (BitVec.toInt_bmod_cancel num).symm
  · rw [BitVec.toInt_srem, Int.natAbs_tmod]
    exact Nat.mod_lt _ (Int.natAbs_pos.mpr hd')
  · rw [BitVec.toInt_srem]
    exact ⟨Int.tmod_nonneg _, fun h => by
      have hneg := Int.tmod_nonneg denom.toInt (Int.neg_nonneg.mpr h)
      rw [Int.neg_tmod] at hneg
      omega⟩

end Signed

/-- Whether the type of twice the width is one of the compiler's or is made of two parts. -/
theorem idivNonrestoringEmul_spec (hW : 1 < W) (num denom : BitVec W) (hd : denom ≠ 0) :
    IsSignedDivision num denom (idivNonrestoringEmul (native W) num denom) ∧
      IsSignedDivision num denom (idivNonrestoringEmul (emulated W) num denom) := by
  rw [idivNonrestoringEmul_eq (native_lawful W) (by omega) num hd,
    idivNonrestoringEmul_eq (emulated_lawful hW) (by omega) num hd]
  exact ⟨isSignedDivision_sdiv num hd, isSignedDivision_sdiv num hd⟩

/-- The most negative number by minus one. -/
theorem idivNonrestoringEmul_min_by_neg_one :
    IsSignedDivision (0x80000000 : BitVec 32) (-1) (idivNonrestoringEmul (native 32) 0x80000000 (-1)) ∧
      IsSignedDivision (0x80000000 : BitVec 32) (-1) (idivNonrestoringEmul (emulated 32) 0x80000000 (-1)) :=
  idivNonrestoringEmul_spec (by decide) 0x80000000 (-1) (by decide)

end XviOs.Integer
