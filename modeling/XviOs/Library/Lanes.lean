import Mathlib.Tactic
import Mathlib.Algebra.BigOperators.Intervals

namespace XviOs.Library.Lanes

open Finset

variable {v m s j : ℕ} {f g : ℕ → ℕ}

/-- The number whose lanes of `v` bits hold the values, the first at the bottom. -/
def lanes (v m : ℕ) (f : ℕ → ℕ) : ℕ := ∑ i ∈ range m, f i * 2 ^ (v * i)

theorem lanes_succ (v m : ℕ) (f : ℕ → ℕ) : lanes v (m + 1) f = lanes v m f + f m * 2 ^ (v * m) := sum_range_succ _ m

theorem lanes_succ_bottom (v m : ℕ) (f : ℕ → ℕ) :
    lanes v (m + 1) f = f 0 + 2 ^ v * lanes v m (fun i => f (i + 1)) := by
  rw [lanes, sum_range_succ', lanes, mul_sum, Nat.mul_zero, Nat.pow_zero, Nat.mul_one, Nat.add_comm]
  congr 1
  apply sum_congr rfl
  intro i hi
  rw [Nat.mul_succ, Nat.pow_add]
  ring

theorem lanes_add (v m : ℕ) (f g : ℕ → ℕ) : lanes v m f + lanes v m g = lanes v m (fun i => f i + g i) := by
  rw [lanes, lanes, ← sum_add_distrib]
  apply sum_congr rfl
  intro i hi
  exact (Nat.add_mul _ _ _).symm

theorem lanes_lt (hf : ∀ i < m, f i < 2 ^ v) : lanes v m f < 2 ^ (v * m) := by
  induction m with
  | zero => exact Nat.two_pow_pos _
  | succ m ih =>
    have hlow := ih fun i hi => hf i (by omega)
    have htop : (f m + 1) * 2 ^ (v * m) ≤ 2 ^ v * 2 ^ (v * m) := Nat.mul_le_mul_right _ (hf m m.lt_succ_self)
    rw [lanes_succ, Nat.mul_succ, Nat.add_comm (v * m) v, Nat.pow_add]
    rw [Nat.succ_mul] at htop
    omega

/-- A bit is a bit of the lane that it lies in. -/
theorem testBit_lanes (hv : 0 < v) (hf : ∀ i < m, f i < 2 ^ v) (j : ℕ) :
    (lanes v m f).testBit j = (decide (j / v < m) && (f (j / v)).testBit (j % v)) := by
  induction m with
  | zero => rw [lanes, sum_range_zero, Nat.zero_testBit, decide_eq_false (Nat.not_lt_zero _), Bool.false_and]
  | succ m ih =>
    have hlow : ∀ i < m, f i < 2 ^ v := fun i hi => hf i (by omega)
    rw [lanes_succ, Nat.add_comm, Nat.mul_comm, Nat.testBit_two_pow_mul_add _ (lanes_lt hlow), ih hlow]
    split
    · rename_i h
      have hdiv : j / v < m := Nat.div_lt_of_lt_mul h
      rw [decide_eq_true hdiv, decide_eq_true (by omega)]
    · rename_i h
      have hle : m ≤ j / v := (Nat.le_div_iff_mul_le hv).mpr (by rw [Nat.mul_comm]; omega)
      by_cases heq : j / v = m
      · have hmod : j - v * m = j % v := by
          rw [← heq]
          exact (Nat.mod_eq_sub_mul_div).symm
        rw [heq, hmod, decide_eq_true m.lt_succ_self, Bool.true_and]
      · -- the bit lies above the lanes
        have hsucc : v * (m + 1) ≤ j := by
          rw [Nat.mul_comm]
          exact (Nat.le_div_iff_mul_le hv).mp (by omega)
        rw [decide_eq_false (by omega), Bool.false_and]
        apply Nat.testBit_lt_two_pow
        apply (hf m m.lt_succ_self).trans_le
        apply Nat.pow_le_pow_right Nat.two_pos
        rw [Nat.mul_succ] at hsucc
        omega

/-- A number is the one of its bits, each in a lane of its own. -/
theorem lanes_testBit {x : ℕ} (hx : x < 2 ^ m) : lanes 1 m (fun i => (x.testBit i).toNat) = x := by
  apply Nat.eq_of_testBit_eq
  intro j
  rw [testBit_lanes Nat.one_pos fun i _ => Bool.toNat_lt _, Nat.div_one, Nat.mod_one, Nat.testBit_zero]
  by_cases hj : j < m
  · rw [decide_eq_true hj]
    cases x.testBit j <;> rfl
  · rw [decide_eq_false hj, Nat.testBit_lt_two_pow (hx.trans_le (Nat.pow_le_pow_right Nat.two_pos (by omega)))]
    rfl

/-- A shift by whole lanes drops the ones at the bottom. -/
theorem lanes_shiftRight (hv : 0 < v) (hf : ∀ i, f i < 2 ^ v) (hzero : ∀ i, m ≤ i → f i = 0) (s : ℕ) :
    lanes v m f >>> (v * s) = lanes v m (fun i => f (i + s)) := by
  apply Nat.eq_of_testBit_eq
  intro j
  rw [Nat.testBit_shiftRight, testBit_lanes hv fun i _ => hf i, testBit_lanes hv fun i _ => hf (i + s),
    Nat.mul_add_div hv, Nat.mul_add_mod, Nat.add_comm s]
  by_cases hj : j / v + s < m
  · rw [decide_eq_true hj, decide_eq_true (by omega)]
  · rw [decide_eq_false hj, hzero _ (by omega), Nat.zero_testBit, Bool.and_false, Bool.and_false]

/-- The sums of the pairs of neighbours. -/
def pairSums (f : ℕ → ℕ) (i : ℕ) : ℕ := f (2 * i) + f (2 * i + 1)

theorem sum_pairSums (f : ℕ → ℕ) (m : ℕ) : ∑ i ∈ range m, pairSums f i = ∑ i ∈ range (2 * m), f i := by
  induction m with
  | zero => rfl
  | succ m ih =>
    rw [sum_range_succ, ih, show 2 * (m + 1) = 2 * m + 1 + 1 by omega, sum_range_succ, sum_range_succ, pairSums]
    omega

theorem pairSums_le {b : ℕ} (hf : ∀ i, f i ≤ b) (i : ℕ) : pairSums f i ≤ 2 * b := by
  have h0 := hf (2 * i)
  have h1 := hf (2 * i + 1)
  rw [pairSums]
  omega

theorem pairSums_zero (hf : ∀ i, 2 * m ≤ i → f i = 0) (i : ℕ) (hi : m ≤ i) : pairSums f i = 0 := by
  rw [pairSums, hf _ (by omega), hf _ (by omega)]

/-- The mask of every other lane. -/
def evenMask (v m : ℕ) : ℕ := lanes (2 * v) m (fun _ => 2 ^ v - 1)

theorem lanes_and_evenMask (hv : 0 < v) (hf : ∀ i, f i < 2 ^ v) :
    lanes v (2 * m) f &&& evenMask v m = lanes (2 * v) m (fun i => f (2 * i)) := by
  have hwide : 2 ^ v ≤ 2 ^ (2 * v) := Nat.pow_le_pow_right Nat.two_pos (by omega)
  have hmask : ∀ i < m, 2 ^ v - 1 < 2 ^ (2 * v) := by
    intro i hi
    have := Nat.two_pow_pos v
    omega
  apply Nat.eq_of_testBit_eq
  intro j
  rw [Nat.testBit_and, testBit_lanes hv fun i _ => hf i, evenMask, testBit_lanes (by omega) hmask,
    testBit_lanes (by omega) fun i _ => (hf (2 * i)).trans_le hwide, Nat.testBit_two_pow_sub_one]
  have hj := Nat.div_add_mod j (2 * v)
  have hr := Nat.mod_lt j (show 0 < 2 * v by omega)
  generalize j / (2 * v) = q at *
  generalize j % (2 * v) = r at *
  by_cases hlow : r < v
  · -- the bit is in the lane that the mask keeps
    have hcut : j = v * (2 * q) + r := by
      rw [← hj]
      ring
    have hdiv : j / v = 2 * q := by rw [hcut, Nat.mul_add_div hv, Nat.div_eq_of_lt hlow, Nat.add_zero]
    have hmod : j % v = r := by rw [hcut, Nat.mul_add_mod, Nat.mod_eq_of_lt hlow]
    rw [hdiv, hmod, decide_eq_true hlow, Bool.and_true]
    by_cases hq : q < m
    · rw [decide_eq_true hq, decide_eq_true (by omega), Bool.and_true]
    · rw [decide_eq_false hq, Bool.and_false, Bool.false_and]
  · have hclear : (f (2 * q)).testBit r = false :=
      Nat.testBit_lt_two_pow ((hf _).trans_le (Nat.pow_le_pow_right Nat.two_pos (by omega)))
    rw [decide_eq_false hlow, hclear, Bool.and_false, Bool.and_false]

/-- The other lanes are the ones that a shift by one lane puts in their place. -/
theorem lanes_shiftRight_and_evenMask (hv : 0 < v) (hf : ∀ i, f i < 2 ^ v) (hzero : ∀ i, 2 * m ≤ i → f i = 0) :
    lanes v (2 * m) f >>> v &&& evenMask v m = lanes (2 * v) m (fun i => f (2 * i + 1)) := by
  have hshift := lanes_shiftRight hv hf hzero 1
  rw [Nat.mul_one] at hshift
  rw [hshift, lanes_and_evenMask hv fun i => hf (i + 1)]

theorem lanes_pairs (v m : ℕ) (f : ℕ → ℕ) :
    lanes v (2 * m) f = lanes (2 * v) m (fun i => f (2 * i)) + 2 ^ v * lanes (2 * v) m (fun i => f (2 * i + 1)) := by
  induction m with
  | zero => rfl
  | succ m ih =>
    rw [show 2 * (m + 1) = 2 * m + 1 + 1 by omega, lanes_succ, lanes_succ, ih, lanes_succ, lanes_succ,
      show v * (2 * m + 1) = v + 2 * v * m by ring, show v * (2 * m) = 2 * v * m by ring, Nat.pow_add]
    ring

/-- Neighbouring lanes are added in one step over all of them. -/
theorem lanes_pairSums (hv : 0 < v) (hf : ∀ i, f i < 2 ^ v) (hzero : ∀ i, 2 * m ≤ i → f i = 0) :
    (lanes v (2 * m) f &&& evenMask v m) + (lanes v (2 * m) f >>> v &&& evenMask v m) = lanes (2 * v) m (pairSums f) := by
  rw [lanes_and_evenMask hv hf, lanes_shiftRight_and_evenMask hv hf hzero, lanes_add]
  rfl

/-- The lower lane of a pair with one bit each is the pair less twice the upper one, and the sum is the pair less it. -/
theorem lanes_sub_pairSums (hf : ∀ i, f i < 2) (hzero : ∀ i, 2 * m ≤ i → f i = 0) :
    lanes 1 (2 * m) f - (lanes 1 (2 * m) f >>> 1 &&& evenMask 1 m) = lanes 2 m (pairSums f) := by
  rw [lanes_shiftRight_and_evenMask Nat.one_pos hf hzero, lanes_pairs]
  have hsum := lanes_add 2 m (fun i => f (2 * i)) (fun i => f (2 * i + 1))
  have hpairs : lanes 2 m (pairSums f) = lanes 2 m (fun i => f (2 * i) + f (2 * i + 1)) := rfl
  rw [hpairs, ← hsum, Nat.mul_one]
  omega

/-- The lanes, each with the one `s` places above it. -/
theorem lanes_add_shift (hv : 0 < v) (hf : ∀ i, f i < 2 ^ v) (hzero : ∀ i, m ≤ i → f i = 0) (s : ℕ) :
    lanes v m f + lanes v m f >>> (v * s) = lanes v m (fun i => f i + f (i + s)) := by
  rw [lanes_shiftRight hv hf hzero, lanes_add]

/-- A product with ones in all lanes has in each lane the sum of the lanes up to it. -/
theorem lanes_mul_ones (v m : ℕ) (f : ℕ → ℕ) :
    lanes v m f * lanes v m (fun _ => 1) % 2 ^ (v * m) =
      lanes v m (fun j => ∑ i ∈ range (j + 1), f i) % 2 ^ (v * m) := by
  induction m generalizing f with
  | zero => rfl
  | succ m ih =>
    have hones : lanes v (m + 1) (fun _ => 1) = lanes v m (fun _ => 1) + 2 ^ (v * m) := by
      rw [lanes_succ, Nat.one_mul]
    have hpow : 2 ^ (v * (m + 1)) = 2 ^ v * 2 ^ (v * m) := by rw [Nat.mul_succ, Nat.add_comm, Nat.pow_add]
    have hsums : lanes v (m + 1) (fun j => ∑ i ∈ range (j + 1), f i) =
        f 0 * lanes v (m + 1) (fun _ => 1) + 2 ^ v * lanes v m (fun j => ∑ i ∈ range (j + 1), f (i + 1)) := by
      rw [lanes_succ_bottom, lanes_succ_bottom, sum_range_one]
      have hsplit : lanes v m (fun j => ∑ i ∈ range (j + 1 + 1), f i) =
          f 0 * lanes v m (fun _ => 1) + lanes v m (fun j => ∑ i ∈ range (j + 1), f (i + 1)) := by
        rw [lanes, lanes, lanes, mul_sum, ← sum_add_distrib]
        apply sum_congr rfl
        intro j hj
        rw [sum_range_succ']
        ring
      rw [hsplit]
      ring
    have hprod : lanes v (m + 1) f * lanes v (m + 1) (fun _ => 1) = f 0 * lanes v (m + 1) (fun _ => 1) +
        2 ^ v * (lanes v m (fun i => f (i + 1)) * lanes v m (fun _ => 1)) +
        2 ^ (v * (m + 1)) * lanes v m (fun i => f (i + 1)) := by
      rw [lanes_succ_bottom, hones, hpow]
      ring
    rw [hprod, hsums, Nat.add_mul_mod_self_left, hpow, Nat.add_mod, Nat.mul_mod_mul_left, ih,
      ← Nat.mul_mod_mul_left, ← Nat.add_mod]

/-- The top lane. -/
theorem lanes_div_top (hf : ∀ i < m, f i < 2 ^ v) : lanes v (m + 1) f / 2 ^ (v * m) = f m := by
  rw [lanes_succ, Nat.add_mul_div_right _ _ (Nat.two_pow_pos _), Nat.div_eq_of_lt (lanes_lt hf), Nat.zero_add]

theorem lanes_mod_bottom (h0 : f 0 < 2 ^ v) : lanes v (m + 1) f % 2 ^ v = f 0 := by
  rw [lanes_succ_bottom, Nat.add_mul_mod_self_left, Nat.mod_eq_of_lt h0]

end XviOs.Library.Lanes
