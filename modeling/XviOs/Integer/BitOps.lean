import Mathlib.Tactic
import XviOs.Integer.Multiply
import XviOs.Library.ByteCoding
import XviOs.Library.Lanes

namespace XviOs.Integer

open Finset XviOs.Library.Lanes XviOs.Library.ByteOrder

variable {W w m k : Nat}

def clzLoop (t : BitVec w) (shift count : Nat) : Nat :=
  if shift = 0 then count
  else if t < BitVec.ofNat w 1 <<< shift then clzLoop t (shift / 2) (count + shift)
  else clzLoop (t >>> shift) (shift / 2) count
termination_by shift
decreasing_by all_goals omega

def clzEmul (t : BitVec w) : Nat := if t = 0 then w else clzLoop t (w / 2) 0

/-- The count of a half is the compiler's where it has one for that width. -/
def SplitInt.clzSplitEmul (clz : BitVec W → Nat) (t : SplitInt W) : Nat :=
  if t.high = 0 then clz t.low + W else clz t.high

/-- The low bits below the count. -/
def lowMask (w shift : Nat) : BitVec w := BitVec.ofNat w 1 <<< shift - 1

def ctzLoop (t : BitVec w) (shift count : Nat) : Nat :=
  if shift = 0 then count
  else if t &&& lowMask w shift = 0 then ctzLoop (t >>> shift) (shift / 2) (count + shift)
  else ctzLoop t (shift / 2) count
termination_by shift
decreasing_by all_goals omega

def ctzEmul (t : BitVec w) : Nat := if t = 0 then w else ctzLoop t (w / 2) 0

def SplitInt.ctzSplitEmul (ctz : BitVec W → Nat) (t : SplitInt W) : Nat :=
  if t.low = 0 then ctz t.high + W else ctz t.low

def ffsEmul (ctz : BitVec w → Nat) (t : BitVec w) : Nat := if t = 0 then 0 else ctz t + 1

def parityLoop (t : BitVec w) (shift : Nat) : BitVec w :=
  if shift = 0 then t else parityLoop ((t &&& lowMask w shift) ^^^ t >>> shift) (shift / 2)
termination_by shift
decreasing_by all_goals omega

def parityEmul (t : BitVec w) : Nat := (parityLoop t (w / 2)).toNat

def popcountM1 : BitVec 64 := 0x5555555555555555#64
def popcountM2 : BitVec 64 := 0x3333333333333333#64
def popcountM4 : BitVec 64 := 0x0f0f0f0f0f0f0f0f#64
def popcountH01 : BitVec 64 := 0x0101010101010101#64

/-- The steps that both population counts begin with. -/
def popcountBytes (t : BitVec w) : BitVec w :=
  let t := t - (t >>> 1 &&& popcountM1.setWidth w)
  let t := (t &&& popcountM2.setWidth w) + (t >>> 2 &&& popcountM2.setWidth w)
  (t + t >>> 4) &&& popcountM4.setWidth w

def popcountNomulEmul (t : BitVec w) : Nat :=
  let t := popcountBytes t
  let t := t + t >>> 8
  let t := t + t >>> 16
  let t := if 32 < w then t + t >>> 32 else t
  (t &&& 0x7f).toNat

def popcountMulEmul (t : BitVec w) : Nat := ((popcountBytes t * popcountH01.setWidth w) >>> (w - 8)).toNat

/-- `popcount` of a `__uint128_t`. -/
def popcount128 (popcount : BitVec 64 → Nat) (u : BitVec 128) : Nat :=
  let low := u.setWidth 64
  let high := (u >>> 64).setWidth 64
  popcount low + popcount high

/-- The shifts are those of `int`, which a `std::uint16_t` is widened to. -/
def bswapEmul16 (i : BitVec 16) : BitVec 16 :=
  let lower := ((i.setWidth 32 >>> 8) &&& 0xFF#32).setWidth 16
  let upper := ((i.setWidth 32 <<< 8) &&& 0xFF00#32).setWidth 16
  lower ||| upper

def bswapEmul32 (i : BitVec 32) : BitVec 32 :=
  let lower := (bswapEmul16 (((i >>> 16) &&& 0xFFFF).setWidth 16)).setWidth 32
  let upper := (bswapEmul16 ((i &&& 0xFFFF).setWidth 16)).setWidth 32 <<< 16
  lower ||| upper

def bswapEmul64 (i : BitVec 64) : BitVec 64 :=
  let lower := (bswapEmul32 (((i >>> 32) &&& 0xFFFFFFFF).setWidth 32)).setWidth 64
  let upper := (bswapEmul32 ((i &&& 0xFFFFFFFF).setWidth 32)).setWidth 64 <<< 32
  lower ||| upper

/-- The bits above the highest one set, all of them if none is. -/
structure LeadingZeros (t : BitVec w) (n : Nat) : Prop where
  le : n ≤ w
  clear : ∀ i < n, t.getMsbD i = false
  set : n < w → t.getMsbD n = true

/-- The bits below the lowest one set, all of them if none is. -/
structure TrailingZeros (t : BitVec w) (n : Nat) : Prop where
  le : n ≤ w
  clear : ∀ i < n, t.getLsbD i = false
  set : n < w → t.getLsbD n = true

/-- The number of the lowest bit set, from one on, or zero if none is. -/
def FirstSet (t : BitVec w) (n : Nat) : Prop :=
  if t = 0 then n = 0 else ∃ i, n = i + 1 ∧ t.getLsbD i = true ∧ ∀ j < i, t.getLsbD j = false

/-- The number of the bits set. -/
def bitCount (t : BitVec w) : Nat := ∑ i ∈ range w, (t.getLsbD i).toNat

section Loops

theorem half_two_pow (k : Nat) : 2 ^ (k + 1) / 2 = 2 ^ k := by
  rw [Nat.pow_succ, Nat.mul_div_cancel _ Nat.two_pos]

theorem toNat_one_shiftLeft {s : Nat} (hs : s < w) : (BitVec.ofNat w 1 <<< s).toNat = 2 ^ s := by
  have hlt : 2 ^ s < 2 ^ w := Nat.pow_lt_pow_right Nat.one_lt_two hs
  have hone : 1 < 2 ^ w := Nat.one_lt_two_pow (by omega)
  rw [BitVec.toNat_shiftLeft, BitVec.toNat_ofNat, Nat.mod_eq_of_lt hone, Nat.shiftLeft_eq, Nat.one_mul,
    Nat.mod_eq_of_lt hlt]

theorem toNat_lowMask {s : Nat} (hs : s < w) : (lowMask w s).toNat = 2 ^ s - 1 := by
  have hone : (1 : BitVec w).toNat = 1 := by
    rw [BitVec.ofNat_eq_ofNat, BitVec.toNat_ofNat, Nat.mod_eq_of_lt (Nat.one_lt_two_pow (by omega))]
  have hpos := Nat.two_pow_pos s
  rw [lowMask, BitVec.toNat_sub_of_le, toNat_one_shiftLeft hs, hone]
  rw [BitVec.le_def, toNat_one_shiftLeft hs, hone]
  exact hpos

theorem getLsbD_lowMask {s : Nat} (hs : s < w) (i : Nat) : (lowMask w s).getLsbD i = decide (i < s) := by
  rw [← BitVec.testBit_toNat, toNat_lowMask hs, Nat.testBit_two_pow_sub_one]

theorem and_lowMask_eq_zero_iff {s : Nat} (hs : s < w) (t : BitVec w) :
    t &&& lowMask w s = 0 ↔ ∀ i < s, t.getLsbD i = false := by
  constructor
  · intro h i hi
    have hbit := congrArg (fun x => x.getLsbD i) h
    simpa [getLsbD_lowMask hs, hi] using hbit
  · intro h
    apply BitVec.eq_of_getLsbD_eq
    intro i hi
    rw [BitVec.getLsbD_and, getLsbD_lowMask hs]
    by_cases hs' : i < s
    · rw [h i hs', Bool.false_and]
      exact BitVec.getLsbD_zero.symm
    · rw [decide_eq_false hs', Bool.and_false]
      exact BitVec.getLsbD_zero.symm

/-- The number fits in twice the shift, and what is found are its leading zeros in there. -/
theorem clzLoop_spec (k : Nat) (t : BitVec w) (count : Nat) (hw : 2 ^ k ≤ w)
    (ht : 0 < t.toNat) (hlt : t.toNat < 2 ^ 2 ^ k) :
    ∃ z < 2 ^ k, clzLoop t (2 ^ k / 2) count = count + z ∧ 2 ^ (2 ^ k - 1 - z) ≤ t.toNat ∧ t.toNat < 2 ^ (2 ^ k - z) := by
  induction k generalizing t count with
  | zero =>
    refine ⟨0, Nat.one_pos, ?_, ht, hlt⟩
    rw [clzLoop]
    rfl
  | succ k ih =>
    have hdouble : 2 ^ (k + 1) = 2 ^ k + 2 ^ k := Nat.two_pow_succ k
    have hpos := Nat.two_pow_pos k
    rw [half_two_pow, clzLoop, if_neg hpos.ne']
    split
    · rename_i hsmall
      rw [BitVec.lt_def, toNat_one_shiftLeft (by omega)] at hsmall
      obtain ⟨z, hz, heq, hle, hup⟩ := ih t (count + 2 ^ k) (by omega) ht hsmall
      refine ⟨2 ^ k + z, by omega, by rw [heq, Nat.add_assoc], ?_, ?_⟩
      · rwa [show 2 ^ (k + 1) - 1 - (2 ^ k + z) = 2 ^ k - 1 - z by omega]
      · rwa [show 2 ^ (k + 1) - (2 ^ k + z) = 2 ^ k - z by omega]
    · rename_i hlarge
      rw [BitVec.lt_def, toNat_one_shiftLeft (by omega)] at hlarge
      have hshift : (t >>> 2 ^ k).toNat = t.toNat / 2 ^ 2 ^ k := by
        rw [BitVec.toNat_ushiftRight, Nat.shiftRight_eq_div_pow]
      have hge : 0 < t.toNat / 2 ^ 2 ^ k := Nat.div_pos (by omega) (Nat.two_pow_pos _)
      have hsmall : t.toNat / 2 ^ 2 ^ k < 2 ^ 2 ^ k := by
        apply Nat.div_lt_of_lt_mul
        rwa [← Nat.pow_add, ← hdouble]
      rw [← hshift] at hge hsmall
      obtain ⟨z, hz, heq, hle, hup⟩ := ih (t >>> 2 ^ k) count (by omega) hge hsmall
      rw [hshift] at hle hup
      refine ⟨z, by omega, heq, ?_, ?_⟩
      · rw [show 2 ^ (k + 1) - 1 - z = 2 ^ k - 1 - z + 2 ^ k by omega, Nat.pow_add]
        exact (Nat.le_div_iff_mul_le (Nat.two_pow_pos _)).mp hle
      · rw [show 2 ^ (k + 1) - z = 2 ^ k - z + 2 ^ k by omega, Nat.pow_add]
        exact (Nat.div_lt_iff_lt_mul (Nat.two_pow_pos _)).mp hup

theorem toNat_pos {t : BitVec w} (ht : t ≠ 0) : 0 < t.toNat := by
  apply Nat.pos_of_ne_zero
  intro h
  exact ht (BitVec.eq_of_toNat_eq h)

theorem clzEmul_right (hw : w = 2 ^ k) (t : BitVec w) : LeadingZeros t (clzEmul t) := by
  rw [clzEmul]
  split
  · rename_i hzero
    subst hzero
    refine ⟨Nat.le_refl w, fun i hi => ?_, fun h => absurd h (Nat.lt_irrefl w)⟩
    exact BitVec.getMsbD_zero
  · rename_i hne
    have hlt : t.toNat < 2 ^ 2 ^ k := t.isLt.trans_le (Nat.pow_le_pow_right Nat.two_pos hw.le)
    obtain ⟨z, hz, heq, hle, hup⟩ := clzLoop_spec k t 0 hw.ge (toNat_pos hne) hlt
    rw [← hw] at hz heq hle hup
    rw [heq, Nat.zero_add]
    refine ⟨hz.le, fun i hi => ?_, fun _ => ?_⟩
    · rw [BitVec.getMsbD_eq_getLsbD, ← BitVec.testBit_toNat, Nat.testBit_lt_two_pow, Bool.and_false]
      exact hup.trans_le (Nat.pow_le_pow_right Nat.two_pos (by omega))
    · rw [BitVec.getMsbD_eq_getLsbD, ← BitVec.testBit_toNat, decide_eq_true hz, Bool.true_and]
      apply Nat.testBit_of_two_pow_le_and_two_pow_add_one_gt hle
      rwa [show w - 1 - z + 1 = w - z by omega]

/-- One of the bits below twice the shift is set, and what is found is the lowest. -/
theorem ctzLoop_spec (k : Nat) (t : BitVec w) (count : Nat) (hw : 2 ^ k ≤ w) (ht : ∃ i < 2 ^ k, t.getLsbD i = true) :
    ∃ z < 2 ^ k, ctzLoop t (2 ^ k / 2) count = count + z ∧ t.getLsbD z = true ∧ ∀ i < z, t.getLsbD i = false := by
  induction k generalizing t count with
  | zero =>
    obtain ⟨i, hi, hbit⟩ := ht
    obtain rfl : i = 0 := by omega
    refine ⟨0, Nat.one_pos, ?_, hbit, fun i hi => absurd hi (Nat.not_lt_zero i)⟩
    rw [ctzLoop]
    rfl
  | succ k ih =>
    have hdouble : 2 ^ (k + 1) = 2 ^ k + 2 ^ k := Nat.two_pow_succ k
    have hpos := Nat.two_pow_pos k
    have hmask := and_lowMask_eq_zero_iff (show 2 ^ k < w by omega) t
    rw [half_two_pow, ctzLoop, if_neg hpos.ne']
    split
    · rename_i hlow
      rw [hmask] at hlow
      have hhigh : ∃ i < 2 ^ k, (t >>> 2 ^ k).getLsbD i = true := by
        obtain ⟨i, hi, hbit⟩ := ht
        have hge : 2 ^ k ≤ i := by
          by_contra hlt
          rw [hlow i (by omega)] at hbit
          exact Bool.false_ne_true hbit
        refine ⟨i - 2 ^ k, by omega, ?_⟩
        rwa [BitVec.getLsbD_ushiftRight, Nat.add_sub_cancel' hge]
      obtain ⟨z, hz, heq, hset, hclear⟩ := ih (t >>> 2 ^ k) (count + 2 ^ k) (by omega) hhigh
      rw [BitVec.getLsbD_ushiftRight] at hset
      refine ⟨2 ^ k + z, by omega, by rw [heq, Nat.add_assoc], hset, ?_⟩
      intro i hi
      by_cases hlt : i < 2 ^ k
      · exact hlow i hlt
      · have hbit := hclear (i - 2 ^ k) (by omega)
        rwa [BitVec.getLsbD_ushiftRight, Nat.add_sub_cancel' (by omega)] at hbit
    · rename_i hlow
      rw [hmask] at hlow
      push Not at hlow
      obtain ⟨i, hi, hbit⟩ := hlow
      obtain ⟨z, hz, hrest⟩ := ih t count (by omega) ⟨i, hi, Bool.eq_true_of_not_eq_false hbit⟩
      exact ⟨z, by omega, hrest⟩

theorem exists_set {t : BitVec w} (ht : t ≠ 0) : ∃ i < w, t.getLsbD i = true := by
  by_contra hall
  push Not at hall
  apply ht
  apply BitVec.eq_of_getLsbD_eq
  intro i hi
  rw [Bool.eq_false_of_not_eq_true (hall i hi)]
  exact BitVec.getLsbD_zero.symm

theorem ctzEmul_right (hw : w = 2 ^ k) (t : BitVec w) : TrailingZeros t (ctzEmul t) := by
  rw [ctzEmul]
  split
  · rename_i hzero
    subst hzero
    refine ⟨Nat.le_refl w, fun i hi => ?_, fun h => absurd h (Nat.lt_irrefl w)⟩
    exact BitVec.getLsbD_zero
  · rename_i hne
    have hset := exists_set hne
    obtain ⟨z, hz, heq, hbit, hclear⟩ := ctzLoop_spec k t 0 hw.ge (by rwa [← hw])
    rw [← hw] at hz heq
    rw [heq, Nat.zero_add]
    exact ⟨hz.le, hclear, fun _ => hbit⟩

theorem ffsEmul_right {ctz : BitVec w → Nat} (hctz : ∀ t, t ≠ 0 → TrailingZeros t (ctz t)) (t : BitVec w) :
    FirstSet t (ffsEmul ctz t) := by
  rw [FirstSet, ffsEmul]
  split
  · rfl
  · rename_i hne
    have h := hctz t hne
    refine ⟨ctz t, rfl, h.set ?_, h.clear⟩
    by_contra hge
    obtain ⟨i, hi, hbit⟩ := exists_set hne
    rw [h.clear i (by omega)] at hbit
    exact Bool.false_ne_true hbit

end Loops

namespace LeadingZeros

theorem unique {t : BitVec w} {n n' : Nat} (h : LeadingZeros t n) (h' : LeadingZeros t n') : n = n' := by
  have hle := h.le
  have hle' := h'.le
  rcases Nat.lt_trichotomy n n' with hlt | heq | hlt
  · have hset := h.set (by omega)
    rw [h'.clear n hlt] at hset
    exact absurd hset Bool.false_ne_true
  · exact heq
  · have hset := h'.set (by omega)
    rw [h.clear n' hlt] at hset
    exact absurd hset Bool.false_ne_true

theorem whole_low {t : SplitInt W} {n : Nat} (hhigh : t.high = 0) (h : LeadingZeros t.low n) :
    LeadingZeros t.whole (n + W) where
  le := Nat.add_le_add_right h.le W
  clear i hi := by
    rw [SplitInt.whole, BitVec.getMsbD_append, hhigh]
    split
    · exact h.clear _ (by omega)
    · exact BitVec.getMsbD_zero
  set hlt := by
    rw [SplitInt.whole, BitVec.getMsbD_append, if_pos (by omega), Nat.add_sub_cancel]
    exact h.set (by omega)

theorem whole_high {t : SplitInt W} {n : Nat} (hhigh : t.high ≠ 0) (h : LeadingZeros t.high n) :
    LeadingZeros t.whole n := by
  have hlt : n < W := by
    by_contra hge
    apply hhigh
    apply BitVec.eq_of_getMsbD_eq
    intro i hi
    rw [h.clear i (by omega)]
    exact BitVec.getMsbD_zero.symm
  refine ⟨by omega, fun i hi => ?_, fun _ => ?_⟩
  · rw [SplitInt.whole, BitVec.getMsbD_append, if_neg (by omega)]
    exact h.clear i hi
  · rw [SplitInt.whole, BitVec.getMsbD_append, if_neg (by omega)]
    exact h.set hlt

end LeadingZeros

namespace TrailingZeros

theorem unique {t : BitVec w} {n n' : Nat} (h : TrailingZeros t n) (h' : TrailingZeros t n') : n = n' := by
  have hle := h.le
  have hle' := h'.le
  rcases Nat.lt_trichotomy n n' with hlt | heq | hlt
  · have hset := h.set (by omega)
    rw [h'.clear n hlt] at hset
    exact absurd hset Bool.false_ne_true
  · exact heq
  · have hset := h'.set (by omega)
    rw [h.clear n' hlt] at hset
    exact absurd hset Bool.false_ne_true

theorem whole_high {t : SplitInt W} {n : Nat} (hlow : t.low = 0) (h : TrailingZeros t.high n) :
    TrailingZeros t.whole (n + W) where
  le := Nat.add_le_add_right h.le W
  clear i hi := by
    rw [SplitInt.getLsbD_whole, hlow]
    split
    · exact BitVec.getLsbD_zero
    · exact h.clear _ (by omega)
  set hlt := by
    rw [SplitInt.getLsbD_whole, if_neg (by omega), Nat.add_sub_cancel]
    exact h.set (by omega)

theorem whole_low {t : SplitInt W} {n : Nat} (hlow : t.low ≠ 0) (h : TrailingZeros t.low n) :
    TrailingZeros t.whole n := by
  have hlt : n < W := by
    by_contra hge
    obtain ⟨i, hi, hbit⟩ := exists_set hlow
    rw [h.clear i (by omega)] at hbit
    exact Bool.false_ne_true hbit
  refine ⟨by omega, fun i hi => ?_, fun _ => ?_⟩
  · rw [SplitInt.getLsbD_whole, if_pos (by omega)]
    exact h.clear i hi
  · rw [SplitInt.getLsbD_whole, if_pos hlt]
    exact h.set hlt

end TrailingZeros

section Parity

theorem bit_xor_mod (a b : Bool) : (a ^^ b).toNat % 2 = (a.toNat + b.toNat) % 2 := by
  cases a <;> cases b <;> rfl

/-- A round folds the upper half of the bits on the lower one, and keeps whether their number is odd. -/
theorem parityLoop_spec (k : Nat) (t : BitVec w) (hw : 2 ^ k ≤ w) (hlt : t.toNat < 2 ^ 2 ^ k) :
    (parityLoop t (2 ^ k / 2)).toNat = (∑ i ∈ range (2 ^ k), (t.getLsbD i).toNat) % 2 := by
  induction k generalizing t with
  | zero =>
    have hsum := lanes_testBit (m := 1) (x := t.toNat) hlt
    rw [lanes, sum_range_one, Nat.mul_zero, Nat.pow_zero, Nat.mul_one] at hsum
    have hbit : (t.getLsbD 0).toNat = t.toNat := hsum
    have hend : parityLoop t (2 ^ 0 / 2) = t := by
      rw [parityLoop]
      rfl
    rw [hend, Nat.pow_zero, sum_range_one, hbit]
    exact (Nat.mod_eq_of_lt hlt).symm
  | succ k ih =>
    have hdouble : 2 ^ (k + 1) = 2 ^ k + 2 ^ k := Nat.two_pow_succ k
    have hpos := Nat.two_pow_pos k
    have hs : 2 ^ k < w := by omega
    rw [half_two_pow, parityLoop, if_neg hpos.ne', ih _ (by omega)]
    · rw [hdouble, sum_range_add, ← sum_add_distrib, sum_nat_mod, sum_nat_mod _ _ fun i => _ + _]
      congr 1
      apply sum_congr rfl
      intro i hi
      rw [BitVec.getLsbD_xor, BitVec.getLsbD_and, BitVec.getLsbD_ushiftRight, getLsbD_lowMask hs,
        decide_eq_true (mem_range.mp hi), Bool.and_true]
      exact bit_xor_mod _ _
    · rw [BitVec.toNat_xor, BitVec.toNat_and, toNat_lowMask hs, Nat.and_two_pow_sub_one_eq_mod, BitVec.toNat_ushiftRight,
        Nat.shiftRight_eq_div_pow]
      apply Nat.xor_lt_two_pow (Nat.mod_lt _ (Nat.two_pow_pos _))
      apply Nat.div_lt_of_lt_mul
      rwa [← Nat.pow_add, ← hdouble]

theorem parityEmul_right (hw : w = 2 ^ k) (t : BitVec w) : parityEmul t = bitCount t % 2 := by
  have hlt : t.toNat < 2 ^ 2 ^ k := t.isLt.trans_le (Nat.pow_le_pow_right Nat.two_pos hw.le)
  have h := parityLoop_spec k t hw.ge hlt
  rw [← hw] at h
  exact h

end Parity

section Popcount

/-- The constants are the masks of the lanes in that width. -/
structure PopcountMasks (w m : Nat) : Prop where
  width : w = 8 * m
  m1 : (popcountM1.setWidth w).toNat = evenMask 1 (4 * m)
  m2 : (popcountM2.setWidth w).toNat = evenMask 2 (2 * m)
  m4 : (popcountM4.setWidth w).toNat = evenMask 4 m
  h01 : (popcountH01.setWidth w).toNat = lanes 8 m (fun _ => 1)

theorem popcountMasks_32 : PopcountMasks 32 4 := ⟨by decide, by decide, by decide, by decide, by decide⟩

theorem popcountMasks_64 : PopcountMasks 64 8 := ⟨by decide, by decide, by decide, by decide, by decide⟩

def bits (t : BitVec w) (i : Nat) : Nat := (t.getLsbD i).toNat

/-- The bits of each byte, counted. -/
def byteCounts (t : BitVec w) : Nat → Nat := pairSums (pairSums (pairSums (bits t)))

theorem bits_le (t : BitVec w) (i : Nat) : bits t i ≤ 1 := Bool.toNat_le _

theorem bits_zero (t : BitVec w) (i : Nat) (hi : w ≤ i) : bits t i = 0 := by
  rw [bits, BitVec.getLsbD_of_ge t i hi]
  rfl

theorem byteCounts_le (t : BitVec w) (i : Nat) : byteCounts t i ≤ 8 :=
  pairSums_le (pairSums_le (pairSums_le (bits_le t))) i

theorem byteCounts_zero (hw : w = 8 * m) (t : BitVec w) (i : Nat) (hi : m ≤ i) : byteCounts t i = 0 := by
  apply pairSums_zero _ i hi
  apply pairSums_zero
  apply pairSums_zero
  intro j hj
  exact bits_zero t j (by omega)

theorem sum_byteCounts (hw : w = 8 * m) (t : BitVec w) : ∑ i ∈ range m, byteCounts t i = bitCount t := by
  have hwidth : 2 * (2 * (2 * m)) = w := by omega
  rw [byteCounts, sum_pairSums, sum_pairSums, sum_pairSums, hwidth]
  rfl

theorem toNat_popcountBytes (h : PopcountMasks w m) (t : BitVec w) :
    (popcountBytes t).toNat = lanes 8 m (byteCounts t) := by
  have hw := h.width
  have hbits : lanes 1 (2 * (4 * m)) (bits t) = t.toNat := by
    have hlt : t.toNat < 2 ^ (2 * (4 * m)) := t.isLt.trans_le (Nat.pow_le_pow_right Nat.two_pos (by omega))
    exact lanes_testBit hlt
  have hzero : ∀ i, 2 * (4 * m) ≤ i → bits t i = 0 := fun i hi => bits_zero t i (by omega)
  have hzero2 : ∀ i, 4 * m ≤ i → pairSums (bits t) i = 0 := pairSums_zero hzero
  have hzero4 : ∀ i, 2 * m ≤ i → pairSums (pairSums (bits t)) i = 0 :=
    pairSums_zero fun i hi => hzero2 i (by omega)
  have hle2 : ∀ i, pairSums (bits t) i ≤ 2 := pairSums_le (bits_le t)
  have hle4 : ∀ i, pairSums (pairSums (bits t)) i ≤ 4 := pairSums_le hle2
  have h2 : (t - (t >>> 1 &&& popcountM1.setWidth w)).toNat = lanes 2 (2 * (2 * m)) (pairSums (bits t)) := by
    have hsub := lanes_sub_pairSums (m := 4 * m) (fun i => Nat.lt_succ_of_le (bits_le t i)) hzero
    rw [hbits, ← h.m1] at hsub
    rw [BitVec.toNat_sub_of_le, BitVec.toNat_and, BitVec.toNat_ushiftRight, hsub, show 2 * (2 * m) = 4 * m by omega]
    rw [BitVec.le_def, BitVec.toNat_and, BitVec.toNat_ushiftRight]
    exact Nat.and_le_left.trans (Nat.shiftRight_le _ _)
  have h4 : ((t - (t >>> 1 &&& popcountM1.setWidth w) &&& popcountM2.setWidth w) +
      ((t - (t >>> 1 &&& popcountM1.setWidth w)) >>> 2 &&& popcountM2.setWidth w)).toNat =
      lanes 4 (2 * m) (pairSums (pairSums (bits t))) := by
    have hlt2 : ∀ i, pairSums (bits t) i < 2 ^ 2 := fun i => Nat.lt_of_le_of_lt (hle2 i) (by decide)
    have hadd := lanes_pairSums (v := 2) (m := 2 * m) Nat.two_pos hlt2 fun i hi => hzero2 i (by omega)
    rw [← h.m2] at hadd
    rw [BitVec.toNat_add, BitVec.toNat_and, BitVec.toNat_and, BitVec.toNat_ushiftRight, h2, hadd, Nat.mod_eq_of_lt]
    have hlt := lanes_lt (v := 4) (m := 2 * m) (f := pairSums (pairSums (bits t)))
      fun i _ => Nat.lt_of_le_of_lt (hle4 i) (by decide)
    rwa [show 4 * (2 * m) = w by omega] at hlt
  have hlt4 : ∀ i, pairSums (pairSums (bits t)) i < 2 ^ 4 := fun i => Nat.lt_of_le_of_lt (hle4 i) (by decide)
  have hadd := lanes_add_shift (v := 4) (by decide) hlt4 hzero4 1
  have hsum : ∀ i, pairSums (pairSums (bits t)) i + pairSums (pairSums (bits t)) (i + 1) < 2 ^ 4 := by
    intro i
    have h0 := hle4 i
    have h1 := hle4 (i + 1)
    omega
  have hlt := lanes_lt (v := 4) (m := 2 * m) fun i _ => hsum i
  rw [show 4 * (2 * m) = w by omega] at hlt
  rw [popcountBytes, BitVec.toNat_and, BitVec.toNat_add, BitVec.toNat_ushiftRight, h4, h.m4, hadd, Nat.mod_eq_of_lt hlt,
    lanes_and_evenMask (by decide) hsum]
  rfl

/-- A sum of lanes that no byte overflows takes the bytes above into it. -/
theorem toNat_add_shift (hw : w = 8 * m) {t : BitVec w} {f : Nat → Nat} {b : Nat} (s : Nat) (ht : t.toNat = lanes 8 m f)
    (hle : ∀ i, f i ≤ b) (hb : 2 * b < 2 ^ 8) (hzero : ∀ i, m ≤ i → f i = 0) :
    (t + t >>> (8 * s)).toNat = lanes 8 m (fun i => f i + f (i + s)) := by
  have hlt : ∀ i, f i < 2 ^ 8 := by
    intro i
    have := hle i
    omega
  have hsum : ∀ i < m, f i + f (i + s) < 2 ^ 8 := by
    intro i hi
    have h0 := hle i
    have h1 := hle (i + s)
    omega
  have hfits := lanes_lt hsum
  rw [← hw] at hfits
  rw [BitVec.toNat_add, BitVec.toNat_ushiftRight, ht, lanes_add_shift (by decide) hlt hzero, Nat.mod_eq_of_lt hfits]

theorem toNat_and_mask (hw : w = 8 * (m + 1)) {t : BitVec w} {f : Nat → Nat} (ht : t.toNat = lanes 8 (m + 1) f)
    (h0 : f 0 < 2 ^ 7) : (t &&& 0x7f).toNat = f 0 := by
  have hpow : 0x7f < 2 ^ w := lt_of_lt_of_le (by decide : 0x7f < 2 ^ 8) (Nat.pow_le_pow_right Nat.two_pos (by omega))
  have hmask : (0x7f : BitVec w).toNat = 2 ^ 7 - 1 := by
    rw [BitVec.ofNat_eq_ofNat, BitVec.toNat_ofNat, Nat.mod_eq_of_lt hpow]
    rfl
  have hlow := lanes_mod_bottom (v := 8) (m := m) (f := f) (by omega)
  rw [BitVec.toNat_and, hmask, Nat.and_two_pow_sub_one_eq_mod, ht]
  omega

/-- The counts of four bytes, from the one on. -/
def quadCounts (t : BitVec w) (i : Nat) : Nat := ∑ j ∈ range 4, byteCounts t (i + j)

theorem quadCounts_le (t : BitVec w) (i : Nat) : quadCounts t i ≤ 32 :=
  sum_le_card_nsmul (range 4) _ 8 fun j _ => byteCounts_le t (i + j)

theorem quadCounts_zero (hw : w = 8 * m) (t : BitVec w) (i : Nat) (hi : m ≤ i) : quadCounts t i = 0 := by
  apply sum_eq_zero
  intro j hj
  exact byteCounts_zero hw t (i + j) (by omega)

/-- Two additions leave them in the bytes. -/
theorem toNat_quads (h : PopcountMasks w m) (t : BitVec w) :
    (popcountBytes t + popcountBytes t >>> 8 + (popcountBytes t + popcountBytes t >>> 8) >>> 16).toNat =
      lanes 8 m (quadCounts t) := by
  have hw := h.width
  have hle := byteCounts_le t
  have hzero := byteCounts_zero hw t
  have hquads : quadCounts t = fun i => byteCounts t i + byteCounts t (i + 1) +
      (byteCounts t (i + 2) + byteCounts t (i + 2 + 1)) := by
    funext i
    rw [quadCounts, sum_range_succ, sum_range_succ, sum_range_succ, sum_range_one]
    exact Nat.add_assoc _ _ _
  have hpairs := toNat_add_shift hw 1 (toNat_popcountBytes h t) hle (by decide) hzero
  rw [hquads]
  refine toNat_add_shift (b := 16) hw 2 hpairs (fun i => ?_) (by decide) fun i hi => ?_
  · exact Nat.add_le_add (hle i) (hle (i + 1))
  · rw [hzero i hi, hzero (i + 1) (by omega)]

theorem popcountNomulEmul_32 (t : BitVec 32) : popcountNomulEmul t = bitCount t := by
  have hle := quadCounts_le t 0
  have hquads := toNat_quads popcountMasks_32 t
  rw [popcountNomulEmul, if_neg (by decide), toNat_and_mask popcountMasks_32.width hquads (by omega),
    ← sum_byteCounts popcountMasks_32.width t, quadCounts]
  simp only [Nat.zero_add]

theorem popcountNomulEmul_64 (t : BitVec 64) : popcountNomulEmul t = bitCount t := by
  have hle0 := quadCounts_le t 0
  have hle4 := quadCounts_le t (0 + 4)
  have hzero := quadCounts_zero popcountMasks_64.width t
  have hall := toNat_add_shift popcountMasks_64.width 4 (toNat_quads popcountMasks_64 t) (quadCounts_le t) (by decide) hzero
  rw [popcountNomulEmul, if_pos (by decide), toNat_and_mask popcountMasks_64.width hall (by omega),
    ← sum_byteCounts popcountMasks_64.width t, quadCounts, quadCounts, sum_range_add _ 4 4]
  simp only [Nat.zero_add]

/-- The top byte of the product is the sum of all bytes, which one byte can hold. -/
theorem popcountMulEmul_right (h : PopcountMasks w (m + 1)) (hm : m < 31) (t : BitVec w) :
    popcountMulEmul t = bitCount t := by
  have hw := h.width
  have hprod := lanes_mul_ones 8 (m + 1) (byteCounts t)
  have hsums : ∀ j < m + 1, ∑ i ∈ range (j + 1), byteCounts t i < 2 ^ 8 := by
    intro j hj
    have hle : ∑ i ∈ range (j + 1), byteCounts t i ≤ (j + 1) * 8 := by
      have hcard := sum_le_card_nsmul (range (j + 1)) (byteCounts t) 8 fun i _ => byteCounts_le t i
      rwa [card_range, smul_eq_mul] at hcard
    omega
  rw [Nat.mod_eq_of_lt (lanes_lt hsums), ← hw] at hprod
  rw [popcountMulEmul, BitVec.toNat_ushiftRight, BitVec.toNat_mul, toNat_popcountBytes h, h.h01, hprod,
    Nat.shiftRight_eq_div_pow, show w - 8 = 8 * m by omega, lanes_div_top fun j hj => hsums j (by omega)]
  exact sum_byteCounts hw t

theorem popcount128_right {popcount : BitVec 64 → Nat} (hpopcount : ∀ t, popcount t = bitCount t) (u : BitVec 128) :
    popcount128 popcount u = bitCount u := by
  have hlow : ∀ i ∈ range 64, ((u.setWidth 64).getLsbD i).toNat = (u.getLsbD i).toNat := by
    intro i hi
    rw [BitVec.getLsbD_setWidth, decide_eq_true (mem_range.mp hi), Bool.true_and]
  have hhigh : ∀ i ∈ range 64, (((u >>> 64).setWidth 64).getLsbD i).toNat = (u.getLsbD (64 + i)).toNat := by
    intro i hi
    rw [BitVec.getLsbD_setWidth, BitVec.getLsbD_ushiftRight, decide_eq_true (mem_range.mp hi), Bool.true_and]
  rw [popcount128, hpopcount, hpopcount, bitCount, bitCount, bitCount, sum_congr rfl hlow, sum_congr rfl hhigh]
  exact (sum_range_add _ 64 64).symm

end Popcount

section Bswap

theorem bytesOf_append {n a : Nat} (k b : Nat) (ha : a < 256 ^ n) :
    bytesOf (n + k) (a + 256 ^ n * b) = bytesOf n a ++ bytesOf k b := by
  induction n generalizing a with
  | zero =>
    obtain rfl : a = 0 := by omega
    rw [Nat.zero_add, Nat.zero_add, Nat.pow_zero, Nat.one_mul]
    rfl
  | succ n ih =>
    have hdiv : a / 256 < 256 ^ n := Nat.div_lt_of_lt_mul (by rwa [← Nat.pow_succ'])
    have hrest : (a + 256 ^ (n + 1) * b) / 256 = a / 256 + 256 ^ n * b := by
      rw [Nat.pow_succ', Nat.mul_assoc, Nat.add_mul_div_left _ _ (by decide)]
    have hhead : UInt8.ofNat (a + 256 ^ (n + 1) * b) = UInt8.ofNat a := by
      apply UInt8.toNat_inj.mp
      rw [UInt8.toNat_ofNat', UInt8.toNat_ofNat', Nat.pow_succ', Nat.mul_assoc]
      omega
    rw [Nat.succ_add, bytesOf, bytesOf, hrest, ih hdiv, hhead, List.cons_append]

/-- A number is reversed by reversing its halves and exchanging them. -/
theorem bytesOf_exchange {n a b c d : Nat} (hb : b < 256 ^ n) (hc : c < 256 ^ n)
    (hbd : bytesOf n d = (bytesOf n b).reverse) (hac : bytesOf n c = (bytesOf n a).reverse) :
    bytesOf (n + n) (c + 256 ^ n * d) = (bytesOf (n + n) (b + 256 ^ n * a)).reverse := by
  rw [bytesOf_append n d hc, bytesOf_append n a hb, hbd, hac, List.reverse_append]

theorem toNat_or_shiftLeft (hw : w = W + W) (x y : BitVec W) :
    (x.setWidth w ||| y.setWidth w <<< W).toNat = x.toNat + 2 ^ W * y.toNat := by
  have hwide : 2 ^ W ≤ 2 ^ w := Nat.pow_le_pow_right Nat.two_pos (by omega)
  have hx := x.isLt
  have hy := y.isLt
  have hupper : y.toNat * 2 ^ W < 2 ^ w := by
    rw [hw, Nat.pow_add]
    exact Nat.mul_lt_mul_of_pos_right hy (Nat.two_pow_pos W)
  rw [BitVec.toNat_or, BitVec.toNat_shiftLeft, BitVec.toNat_setWidth, BitVec.toNat_setWidth,
    Nat.mod_eq_of_lt (hx.trans_le hwide), Nat.mod_eq_of_lt (hy.trans_le hwide), Nat.shiftLeft_eq,
    Nat.mod_eq_of_lt hupper, ← Nat.shiftLeft_eq,
    Nat.or_comm, ← Nat.shiftLeft_add_eq_or_of_lt hx, Nat.shiftLeft_eq, Nat.add_comm, Nat.mul_comm]

/-- A swap of the halves after a swap in each of them. -/
theorem bytesOf_swap {n : Nat} (hW : W = 8 * n) (hw : w = W + W) {swap : BitVec W → BitVec W}
    (hswap : ∀ i, bytesOf n (swap i).toNat = (bytesOf n i.toNat).reverse) (i : BitVec w) (mask : BitVec w)
    (hmask : mask.toNat = 2 ^ W - 1) :
    bytesOf (n + n) ((swap (((i >>> W) &&& mask).setWidth W)).setWidth w |||
      (swap ((i &&& mask).setWidth W)).setWidth w <<< W).toNat = (bytesOf (n + n) i.toNat).reverse := by
  have hpow : 2 ^ W = 256 ^ n := by rw [hW, Nat.pow_mul]
  have hhigh : (((i >>> W) &&& mask).setWidth W).toNat = i.toNat / 2 ^ W := by
    have hlt : i.toNat / 2 ^ W < 2 ^ W := by
      apply Nat.div_lt_of_lt_mul
      rw [← Nat.pow_add, ← hw]
      exact i.isLt
    rw [BitVec.toNat_setWidth, BitVec.toNat_and, BitVec.toNat_ushiftRight, hmask, Nat.and_two_pow_sub_one_eq_mod,
      Nat.shiftRight_eq_div_pow, Nat.mod_mod, Nat.mod_eq_of_lt hlt]
  have hlow : ((i &&& mask).setWidth W).toNat = i.toNat % 2 ^ W := by
    rw [BitVec.toNat_setWidth, BitVec.toNat_and, hmask, Nat.and_two_pow_sub_one_eq_mod, Nat.mod_mod]
  rw [toNat_or_shiftLeft hw, hpow, bytesOf_exchange (a := i.toNat / 2 ^ W) (b := i.toNat % 2 ^ W), ← hpow, Nat.mod_add_div]
  · rw [← hpow]
    exact Nat.mod_lt _ (Nat.two_pow_pos W)
  · rw [← hpow]
    exact (swap _).isLt
  · rw [hswap, hlow]
  · rw [hswap, hhigh]

/-- The masks keep the byte that the shift has moved. -/
theorem bswapEmul16_eq (i : BitVec 16) :
    bswapEmul16 i = ((i >>> 8).setWidth 8).setWidth 16 ||| (i.setWidth 8).setWidth 16 <<< 8 := by
  rw [bswapEmul16]
  congr 1
  · ext j hj
    interval_cases j <;> simp
  · ext j hj
    interval_cases j <;> simp

theorem bytesOf_bswapEmul16 (i : BitVec 16) : bytesOf 2 (bswapEmul16 i).toNat = (bytesOf 2 i.toNat).reverse := by
  have hbyte : ∀ b : BitVec 8, bytesOf 1 b.toNat = (bytesOf 1 b.toNat).reverse := fun b => rfl
  rw [bswapEmul16_eq, toNat_or_shiftLeft (W := 8) rfl]
  have hjoin : i.toNat = (i.setWidth 8).toNat + 256 ^ 1 * ((i >>> 8).setWidth 8).toNat := by
    have hi := i.isLt
    rw [BitVec.toNat_setWidth, BitVec.toNat_setWidth, BitVec.toNat_ushiftRight, Nat.shiftRight_eq_div_pow]
    omega
  rw [hjoin]
  exact bytesOf_exchange (n := 1) (BitVec.isLt _) (BitVec.isLt _) (hbyte _) (hbyte _)

theorem bytesOf_bswapEmul32 (i : BitVec 32) : bytesOf 4 (bswapEmul32 i).toNat = (bytesOf 4 i.toNat).reverse :=
  bytesOf_swap (n := 2) rfl rfl bytesOf_bswapEmul16 i 0xFFFF rfl

theorem bytesOf_bswapEmul64 (i : BitVec 64) : bytesOf 8 (bswapEmul64 i).toNat = (bytesOf 8 i.toNat).reverse :=
  bytesOf_swap (n := 4) rfl rfl bytesOf_bswapEmul32 i 0xFFFFFFFF rfl

end Bswap

/-- What the emulations of one width compute. The `ctz` that `ffs` calls is needed only for numbers other than zero. -/
structure CountsRight (w : Nat) : Prop where
  clz : ∀ t : BitVec w, LeadingZeros t (clzEmul t)
  ctz : ∀ t : BitVec w, TrailingZeros t (ctzEmul t)
  ffs : ∀ ctz : BitVec w → Nat, (∀ t, t ≠ 0 → TrailingZeros t (ctz t)) → ∀ t, FirstSet t (ffsEmul ctz t)
  parity : ∀ t : BitVec w, parityEmul t = bitCount t % 2

/-- The split counts are those of the joined number, whatever the halves' counts give for zero. -/
structure SplitsRight (W : Nat) : Prop where
  clz : ∀ clz : BitVec W → Nat, (∀ t, t ≠ 0 → clz t = clzEmul t) →
    ∀ t : SplitInt W, t.whole ≠ 0 → t.clzSplitEmul clz = clzEmul t.whole
  ctz : ∀ ctz : BitVec W → Nat, (∀ t, t ≠ 0 → ctz t = ctzEmul t) →
    ∀ t : SplitInt W, t.whole ≠ 0 → t.ctzSplitEmul ctz = ctzEmul t.whole
  clzZero : ∀ t : SplitInt W, t.clzSplitEmul clzEmul = clzEmul t.whole
  ctzZero : ∀ t : SplitInt W, t.ctzSplitEmul ctzEmul = ctzEmul t.whole

theorem countsRight (hw : w = 2 ^ k) : CountsRight w where
  clz := clzEmul_right hw
  ctz := ctzEmul_right hw
  ffs _ h := ffsEmul_right h
  parity := parityEmul_right hw

theorem clzSplitEmul_right (hW : W = 2 ^ k) {clz : BitVec W → Nat} {t : SplitInt W}
    (hhigh : t.high ≠ 0 → clz t.high = clzEmul t.high) (hlow : t.high = 0 → clz t.low = clzEmul t.low) :
    t.clzSplitEmul clz = clzEmul t.whole := by
  have hwhole : W + W = 2 ^ (k + 1) := by rw [Nat.two_pow_succ, hW]
  have hright := clzEmul_right hwhole t.whole
  rw [SplitInt.clzSplitEmul]
  split
  · rename_i hzero
    rw [hlow hzero]
    exact ((clzEmul_right hW t.low).whole_low hzero).unique hright
  · rename_i hne
    rw [hhigh hne]
    exact ((clzEmul_right hW t.high).whole_high hne).unique hright

theorem ctzSplitEmul_right (hW : W = 2 ^ k) {ctz : BitVec W → Nat} {t : SplitInt W}
    (hlow : t.low ≠ 0 → ctz t.low = ctzEmul t.low) (hhigh : t.low = 0 → ctz t.high = ctzEmul t.high) :
    t.ctzSplitEmul ctz = ctzEmul t.whole := by
  have hwhole : W + W = 2 ^ (k + 1) := by rw [Nat.two_pow_succ, hW]
  have hright := ctzEmul_right hwhole t.whole
  rw [SplitInt.ctzSplitEmul]
  split
  · rename_i hzero
    rw [hhigh hzero]
    exact ((ctzEmul_right hW t.high).whole_high hzero).unique hright
  · rename_i hne
    rw [hlow hne]
    exact ((ctzEmul_right hW t.low).whole_low hne).unique hright

theorem whole_zero {t : SplitInt W} (hhigh : t.high = 0) (hlow : t.low = 0) : t.whole = 0 := by
  apply BitVec.eq_of_toNat_eq
  rw [SplitInt.toNat_whole, hhigh, hlow]
  simp

theorem splitsRight (hW : W = 2 ^ k) : SplitsRight W where
  clz clz h t hne := by
    apply clzSplitEmul_right hW (h t.high)
    intro hhigh
    exact h t.low fun hlow => hne (whole_zero hhigh hlow)
  ctz ctz h t hne := by
    apply ctzSplitEmul_right hW (h t.low)
    intro hlow
    exact h t.high fun hhigh => hne (whole_zero hhigh hlow)
  clzZero t := clzSplitEmul_right hW (fun _ => rfl) (fun _ => rfl)
  ctzZero t := ctzSplitEmul_right hW (fun _ => rfl) (fun _ => rfl)

/-- Both population counts of a width. -/
structure PopcountsRight (w : Nat) : Prop where
  nomul : ∀ t : BitVec w, popcountNomulEmul t = bitCount t
  mul : ∀ t : BitVec w, popcountMulEmul t = bitCount t

theorem bit_operations :
    (CountsRight 32 ∧ CountsRight 64 ∧ CountsRight 128) ∧ (SplitsRight 32 ∧ SplitsRight 64) ∧
      (PopcountsRight 32 ∧ PopcountsRight 64 ∧ (∀ u, popcount128 popcountNomulEmul u = bitCount u) ∧
        ∀ u, popcount128 popcountMulEmul u = bitCount u) ∧
      (∀ i, bytesOf 4 (bswapEmul32 i).toNat = (bytesOf 4 i.toNat).reverse) ∧
      ∀ i, bytesOf 8 (bswapEmul64 i).toNat = (bytesOf 8 i.toNat).reverse := by
  have hmul32 : ∀ t : BitVec 32, popcountMulEmul t = bitCount t := popcountMulEmul_right popcountMasks_32 (by decide)
  have hmul64 : ∀ t : BitVec 64, popcountMulEmul t = bitCount t := popcountMulEmul_right popcountMasks_64 (by decide)
  refine ⟨⟨countsRight (k := 5) rfl, countsRight (k := 6) rfl, countsRight (k := 7) rfl⟩,
    ⟨splitsRight (k := 5) rfl, splitsRight (k := 6) rfl⟩,
    ⟨⟨popcountNomulEmul_32, hmul32⟩, ⟨popcountNomulEmul_64, hmul64⟩, ?_, ?_⟩, bytesOf_bswapEmul32, bytesOf_bswapEmul64⟩
  · exact popcount128_right popcountNomulEmul_64
  · exact popcount128_right hmul64

end XviOs.Integer
