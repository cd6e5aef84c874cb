import Mathlib.Tactic
import XviOs.Integer.DoubleWidth

namespace XviOs.Integer

variable {W : Nat}

section Half

/-- A shift of the compiler's. It has a meaning only for the counts below the width. -/
def lshift (u : BitVec W) (count : Nat) : Option (BitVec W) := if count < W then some (u <<< count) else none

def rshiftl (u : BitVec W) (count : Nat) : Option (BitVec W) := if count < W then some (u >>> count) else none

def rshifta (i : BitVec W) (count : Nat) : Option (BitVec W) :=
  if count < W then some (i.sshiftRight count) else none

end Half

namespace SplitInt

/-- The integer that the two parts are. -/
def whole (t : SplitInt W) : BitVec (W + W) := t.high ++ t.low

def lshiftSplit (t : SplitInt W) (count : Nat) : Option (SplitInt W) :=
  if count < W then do
    let high ← lshift t.high count
    let carry ← rshiftl t.low (W - count)
    let low ← lshift t.low count
    pure ⟨high ||| carry, low⟩
  else do
    let high ← lshift t.low (count - W)
    pure ⟨high, 0⟩

def rshiftlSplit (t : SplitInt W) (count : Nat) : Option (SplitInt W) :=
  if count < W then do
    let low ← rshiftl t.low count
    let carry ← lshift t.high (W - count)
    let high ← rshiftl t.high count
    pure ⟨high, low ||| carry⟩
  else do
    let low ← rshiftl t.high (count - W)
    pure ⟨0, low⟩

def rshiftaSplit (t : SplitInt W) (count : Nat) : Option (SplitInt W) :=
  if count < W then do
    let low ← rshiftl t.low count
    let carry ← lshift t.high (W - count)
    let high ← rshifta t.high count
    pure ⟨high, low ||| carry⟩
  else do
    let low ← rshifta t.high (count - W)
    let high ← rshifta t.high (W - 1)
    pure ⟨high, low⟩

/-- The half shifts of the three emulations are all defined, and what they make is the shifted integer. -/
structure ShiftsRight (t : SplitInt W) (count : Nat) : Prop where
  left : (t.lshiftSplit count).map whole = some (t.whole <<< count)
  logical : (t.rshiftlSplit count).map whole = some (t.whole >>> count)
  arithmetic : (t.rshiftaSplit count).map whole = some (t.whole.sshiftRight count)

section Counts

variable {t : SplitInt W} {count : Nat}

theorem getLsbD_whole (t : SplitInt W) (i : Nat) :
    t.whole.getLsbD i = if i < W then t.low.getLsbD i else t.high.getLsbD (i - W) := BitVec.getLsbD_append

theorem msb_whole (hW : 0 < W) (t : SplitInt W) : t.whole.msb = t.high.msb := by
  rw [whole, BitVec.msb_append, if_neg (by omega)]

theorem whole_lshift (hpos : 0 < count) (hlt : count < W) :
    whole ⟨t.high <<< count ||| t.low >>> (W - count), t.low <<< count⟩ = t.whole <<< count := by
  apply BitVec.eq_of_getLsbD_eq
  intro i hi
  simp only [getLsbD_whole, BitVec.getLsbD_shiftLeft, BitVec.getLsbD_or, BitVec.getLsbD_ushiftRight]
  by_cases hW : i < W
  · grind
  · -- the carry ends where the bits of the high part begin
    have hcarry : W - count + (i - W) = i - count := by omega
    by_cases hc : i - count < W
    · grind
    · have hlow : t.low.getLsbD (i - count) = false := BitVec.getLsbD_of_ge _ _ (by omega)
      have hindex : i - W - count = i - count - W := by omega
      rw [if_neg hW, if_neg hc, hcarry, hlow, hindex, Bool.or_false, decide_eq_true (by omega : i - W < W),
        decide_eq_true hi, decide_eq_false (by omega : ¬ i - W < count), decide_eq_false (by omega : ¬ i < count)]

theorem whole_lshift_high (hle : W ≤ count) (hlt : count < W + W) :
    whole ⟨t.low <<< (count - W), 0⟩ = t.whole <<< count := by
  apply BitVec.eq_of_getLsbD_eq
  intro i hi
  simp only [getLsbD_whole, BitVec.getLsbD_shiftLeft]
  have hzero : (0 : BitVec W).getLsbD i = false := BitVec.getLsbD_zero
  have hindex : i - W - (count - W) = i - count := by omega
  by_cases hW : i < W
  · rw [if_pos hW, hzero, decide_eq_true (by omega : i < count), Bool.not_true, Bool.and_false, Bool.false_and]
  · rw [if_neg hW, hindex, if_pos (by omega), decide_eq_true (by omega : i - W < W), decide_eq_true hi,
      decide_eq_decide.mpr (by omega : i - W < count - W ↔ i < count)]

theorem whole_rshiftl (hpos : 0 < count) (hlt : count < W) :
    whole ⟨t.high >>> count, t.low >>> count ||| t.high <<< (W - count)⟩ = t.whole >>> count := by
  apply BitVec.eq_of_getLsbD_eq
  intro i hi
  simp only [getLsbD_whole, BitVec.getLsbD_shiftLeft, BitVec.getLsbD_or, BitVec.getLsbD_ushiftRight]
  grind

theorem whole_rshiftl_high (hle : W ≤ count) : whole ⟨0, t.high >>> (count - W)⟩ = t.whole >>> count := by
  apply BitVec.eq_of_getLsbD_eq
  intro i hi
  simp only [getLsbD_whole, BitVec.getLsbD_ushiftRight]
  grind

theorem whole_rshifta (hpos : 0 < count) (hlt : count < W) :
    whole ⟨t.high.sshiftRight count, t.low >>> count ||| t.high <<< (W - count)⟩ = t.whole.sshiftRight count := by
  apply BitVec.eq_of_getLsbD_eq
  intro i hi
  simp only [getLsbD_whole, BitVec.getLsbD_shiftLeft, BitVec.getLsbD_or, BitVec.getLsbD_ushiftRight,
    BitVec.getLsbD_sshiftRight, msb_whole (show 0 < W by omega)]
  grind

theorem whole_rshifta_high (hle : W ≤ count) (hlt : count < W + W) :
    whole ⟨t.high.sshiftRight (W - 1), t.high.sshiftRight (count - W)⟩ = t.whole.sshiftRight count := by
  apply BitVec.eq_of_getLsbD_eq
  intro i hi
  simp only [getLsbD_whole, BitVec.getLsbD_sshiftRight, msb_whole (show 0 < W by omega)]
  grind

/-- A count of zero needs a carry that is shifted by a whole half. -/
theorem lshiftSplit_zero (t : SplitInt W) : t.lshiftSplit 0 = none := by
  rw [lshiftSplit]
  split
  · rw [lshift, if_pos ‹_›, rshiftl, if_neg (by omega)]
    rfl
  · rw [lshift, if_neg (by omega)]
    rfl

theorem shiftsRight_of_lt (hpos : 0 < count) (hlt : count < W) : t.ShiftsRight count where
  left := by
    rw [lshiftSplit, if_pos hlt, lshift, lshift, rshiftl, if_pos hlt, if_pos hlt, if_pos (by omega)]
    exact congrArg some (whole_lshift hpos hlt)
  logical := by
    rw [rshiftlSplit, if_pos hlt, rshiftl, rshiftl, lshift, if_pos hlt, if_pos hlt, if_pos (by omega)]
    exact congrArg some (whole_rshiftl hpos hlt)
  arithmetic := by
    rw [rshiftaSplit, if_pos hlt, rshiftl, rshifta, lshift, if_pos hlt, if_pos hlt, if_pos (by omega)]
    exact congrArg some (whole_rshifta hpos hlt)

theorem shiftsRight_of_le (hle : W ≤ count) (hlt : count < W + W) : t.ShiftsRight count where
  left := by
    rw [lshiftSplit, if_neg (by omega), lshift, if_pos (by omega)]
    exact congrArg some (whole_lshift_high hle hlt)
  logical := by
    rw [rshiftlSplit, if_neg (by omega), rshiftl, if_pos (by omega)]
    exact congrArg some (whole_rshiftl_high hle)
  arithmetic := by
    rw [rshiftaSplit, if_neg (by omega), rshifta, rshifta, if_pos (by omega), if_pos (by omega)]
    exact congrArg some (whole_rshifta_high hle hlt)

end Counts

end SplitInt

open SplitInt

/-- The three emulations are right for every count but zero. -/
theorem shiftsRight_iff (t : SplitInt W) (count : Nat) (hcount : count < W + W) : t.ShiftsRight count ↔ count ≠ 0 := by
  constructor
  · rintro h rfl
    have hleft := h.left
    rw [lshiftSplit_zero] at hleft
    exact absurd hleft (by simp)
  · intro hne
    by_cases hlt : count < W
    · exact shiftsRight_of_lt (Nat.pos_of_ne_zero hne) hlt
    · exact shiftsRight_of_le (not_lt.mp hlt) hcount

theorem shiftsRight_iff_forty :
    (⟨0xDEADBEEF, 0xF00DCAFE⟩ : SplitInt 32).ShiftsRight 40 ↔ (40 : Nat) ≠ 0 :=
  shiftsRight_iff _ 40 (by decide)

theorem not_shiftsRight_zero : ¬ ∀ (t : SplitInt 64) (count : Nat), count < 64 + 64 → t.ShiftsRight count := by
  intro h
  have hleft := (h ⟨0, 1⟩ 0 (by decide)).left
  rw [lshiftSplit_zero] at hleft
  exact absurd hleft (by simp)


end XviOs.Integer
