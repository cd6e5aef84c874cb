import Mathlib.Tactic
import XviOs.Format.CharConv

namespace XviOs.Format

open Library.LittleEndian Library.Slices

variable {I : IntType} {base : Base} {mem mem' : Bytes} {first last n : Nat} {v : Int}

/-- Nothing is written past the buffer. -/
def Outside (mem mem' : Bytes) (first last : Nat) : Prop := ∀ x, x < first ∨ last ≤ x → mem' x = mem x

section Memory

variable {data data' : List UInt8} {a : Nat}

theorem store_store_self (mem : Bytes) (a : Nat) (h : data'.length = data.length) :
    store (store mem a data) a data' = store mem a data' := by
  funext x
  by_cases hx : a ≤ x ∧ x < a + data.length
  · rw [store_of_mem (h ▸ hx), store_of_mem (h ▸ hx)]
  · rw [store_of_not_mem (h ▸ hx), store_of_not_mem hx, store_of_not_mem (h ▸ hx)]

theorem reverse_store (mem : Bytes) (a : Nat) (data : List UInt8) :
    reverse (store mem a data) a (a + data.length) = store mem a data.reverse := by
  rw [reverse, Nat.add_sub_cancel_left, slice_store_self, store_store_self _ _ List.length_reverse]

theorem outside_store (mem : Bytes) (h : data.length ≤ n) : Outside mem (store mem a data) a (a + n) := by
  intro x hx
  apply store_of_not_mem
  omega

theorem Outside.trans {mem'' : Bytes} (h : Outside mem mem' first last) (h' : Outside mem' mem'' (first + n) last) :
    Outside mem mem'' first last := by
  intro x hx
  rw [h' x (by omega), h x hx]

end Memory

section ToChars

theorem push_of_lt (h : first < last) (c : UInt8) : push mem first last c = some (store mem first [c]) :=
  if_neg (by omega)

theorem push_of_le (h : last ≤ first) (c : UInt8) : push mem first last c = none := if_pos h

theorem digitLoop_zero : digitLoop I base mem first last (0 : Nat) = ⟨mem, first, .ok⟩ := by
  rw [digitLoop, dif_neg (by decide)]

theorem digitLoop_pos (hn : 0 < n) (h : first < last) :
    digitLoop I base mem first last n =
      digitLoop I base (store mem first [digitChar (n % base.val)]) (first + 1) last (n / base.val : Nat) := by
  rw [digitLoop, dif_pos (by omega), push_of_lt h, cast_base]
  rfl

theorem digitLoop_full (hn : 0 < n) (h : last ≤ first) :
    digitLoop I base mem first last n = ⟨mem, first, .valueTooLarge⟩ := by
  rw [digitLoop, dif_pos (by omega), push_of_le h]

theorem digits_pos (hn : 0 < n) : Nat.digits base.val n = n % base.val :: Nat.digits base.val (n / base.val) :=
  Nat.digits_def' base.two_le hn

/-- The digits are written from the lowest on. -/
theorem digitLoop_of_le (h : (Nat.digits base.val n).length ≤ last - first) :
    digitLoop I base mem first last n =
      ⟨store mem first ((Nat.digits base.val n).map digitChar), first + (Nat.digits base.val n).length, .ok⟩ := by
  induction n using Nat.strongRecOn generalizing mem first with
  | ind n ih =>
    obtain rfl | hn := Nat.eq_zero_or_pos n
    · rw [digitLoop_zero, Nat.digits_zero, List.map_nil, store_nil]
      rfl
    · have hlt : n / base.val < n := Nat.div_lt_self hn base.two_le
      rw [digits_pos hn, List.length_cons] at h
      rw [digitLoop_pos hn (by omega), ih _ hlt (by omega), digits_pos hn, List.map_cons, store_cons, List.length_cons]
      congr 1
      omega

theorem digitLoop_of_lt (hle : first ≤ last) (h : last - first < (Nat.digits base.val n).length) :
    (digitLoop I base mem first last n).ec = .valueTooLarge ∧
      Outside mem (digitLoop I base mem first last n).mem first last := by
  induction n using Nat.strongRecOn generalizing mem first with
  | ind n ih =>
    obtain rfl | hn := Nat.eq_zero_or_pos n
    · rw [Nat.digits_zero] at h
      exact absurd h (Nat.not_lt_zero _)
    · have hlt : n / base.val < n := Nat.div_lt_self hn base.two_le
      rw [digits_pos hn, List.length_cons] at h
      by_cases hroom : first < last
      · rw [digitLoop_pos hn hroom]
        obtain ⟨hec, hout⟩ : (digitLoop I base (store mem first [digitChar (n % base.val)]) (first + 1) last
            (n / base.val : Nat)).ec = .valueTooLarge ∧ Outside (store mem first [digitChar (n % base.val)])
              (digitLoop I base (store mem first [digitChar (n % base.val)]) (first + 1) last (n / base.val : Nat)).mem
              (first + 1) last := ih _ hlt hroom (by omega)
        refine ⟨hec, ?_⟩
        have hput : Outside mem (store mem first [digitChar (n % base.val)]) first last := by
          intro x hx
          apply store_of_not_mem
          rw [List.length_singleton]
          omega
        exact hput.trans hout
      · rw [digitLoop_full hn (by omega)]
        exact ⟨rfl, fun _ _ => rfl⟩

theorem length_magnitude (hn : 0 < n) : (magnitude base n).length = (Nat.digits base.val n).length := by
  rw [magnitude, if_neg (by omega), List.length_reverse, List.length_map]

theorem magnitude_zero : magnitude base 0 = [digitChar 0] := if_pos rfl

theorem toCharsUnsigned_of_le (h : (magnitude base n).length ≤ last - first) :
    toCharsUnsigned I base mem first last n =
      ⟨store mem first (magnitude base n), first + (magnitude base n).length, .ok⟩ := by
  obtain rfl | hn := Nat.eq_zero_or_pos n
  · rw [magnitude_zero, List.length_singleton] at h
    rw [toCharsUnsigned, if_pos Nat.cast_zero, push_of_lt (by omega), magnitude_zero]
    rfl
  · rw [length_magnitude hn] at h
    rw [toCharsUnsigned, if_neg (by omega), digitLoop_of_le h, if_pos rfl, length_magnitude hn, magnitude,
      if_neg (by omega), ← reverse_store, List.length_map]

theorem toCharsUnsigned_of_lt (hle : first ≤ last) (h : last - first < (magnitude base n).length) :
    (toCharsUnsigned I base mem first last n).ec = .valueTooLarge ∧
      Outside mem (toCharsUnsigned I base mem first last n).mem first last := by
  obtain rfl | hn := Nat.eq_zero_or_pos n
  · rw [magnitude_zero, List.length_singleton] at h
    rw [toCharsUnsigned, if_pos Nat.cast_zero, push_of_le (by omega)]
    exact ⟨rfl, fun _ _ => rfl⟩
  · rw [length_magnitude hn] at h
    obtain ⟨hec, hout⟩ : (digitLoop I base mem first last n).ec = .valueTooLarge ∧
        Outside mem (digitLoop I base mem first last n).mem first last := digitLoop_of_lt hle h
    rw [toCharsUnsigned, if_neg (by omega), if_neg (by rw [hec]; decide)]
    exact ⟨hec, hout⟩

/-- The value whose negation is not one of the type that it is computed in. -/
def NegationOverflows (I : IntType) (v : Int) : Prop := I.signed ∧ IntType.int.width ≤ I.width ∧ v = I.min

theorem signed_of_neg (hv : I.Holds v) (hneg : v < 0) : I.signed := by
  by_contra hs
  obtain ⟨hmin, -⟩ := hv
  rw [IntType.min, if_neg hs] at hmin
  omega

theorem negate_of_overflow (h : NegationOverflows I v) : I.arith (-v) = none := by
  obtain ⟨hs, hwidth, rfl⟩ := h
  have hpromote : I.promote = I := if_neg (by omega)
  have hnot : ¬ I.Holds (-I.min) := by
    rintro ⟨-, hmax⟩
    rw [IntType.min, IntType.max, if_pos hs, if_pos hs] at hmax
    omega
  rw [IntType.arith, hpromote, if_pos hs, if_neg hnot]

theorem negate_of_not_overflow (hv : I.Holds v) (hneg : v < 0) (h : ¬ NegationOverflows I v) :
    I.arith (-v) = some (-v) := by
  have hs := signed_of_neg hv hneg
  have hpow := I.two_pow_width
  obtain ⟨hmin, hmax⟩ := hv
  have hmin' : I.min = -2 ^ (I.width - 1) := if_pos hs
  have hmax' : I.max = 2 ^ (I.width - 1) - 1 := if_pos hs
  by_cases hwidth : I.width < IntType.int.width
  · have hle : (2 : Int) ^ I.width ≤ 2 ^ 31 := pow_le_pow_right₀ (by decide) (Nat.le_of_lt_succ hwidth)
    have hpromote : I.promote = IntType.int := if_pos hwidth
    have hlow : IntType.int.min = -2 ^ 31 := rfl
    have hhigh : IntType.int.max = 2 ^ 31 - 1 := rfl
    have hholds : IntType.int.Holds (-v) := by
      rw [IntType.Holds, hlow, hhigh]
      omega
    rw [IntType.arith, hpromote, if_pos (show IntType.int.signed = true from rfl), if_pos hholds]
  · have hne : v ≠ I.min := fun heq => h ⟨hs, by omega, heq⟩
    apply IntType.arith_of_holds
    constructor <;> omega

theorem cast_negated (hv : I.Holds v) (hneg : v < 0) : I.makeUnsigned.cast (-v) = v.natAbs := by
  have hs := signed_of_neg hv hneg
  have hpow := I.two_pow_width
  obtain ⟨hmin, hmax⟩ := hv
  rw [IntType.min, if_pos hs] at hmin
  have hlow : I.makeUnsigned.min = 0 := rfl
  have hhigh : I.makeUnsigned.max = 2 ^ I.width - 1 := rfl
  rw [IntType.cast_of_holds (by rw [IntType.Holds, hlow, hhigh]; omega)]
  omega

theorem representation_of_neg (hneg : v < 0) : representation base v = minus :: magnitude base v.natAbs := by
  rw [representation, if_pos hneg, List.singleton_append]

theorem representation_natCast (n : Nat) : representation base (n : Int) = magnitude base n := by
  rw [representation, if_neg (by omega), List.nil_append, Int.natAbs_natCast]

theorem toChars_neg (hv : I.Holds v) (hover : ¬ NegationOverflows I v) (hneg : v < 0) (h : first < last) :
    toChars I base mem first last v =
      some (toCharsUnsigned I.makeUnsigned base (store mem first [minus]) (first + 1) last v.natAbs) := by
  rw [toChars, if_pos hneg, push_of_lt h, negate_of_not_overflow hv hneg hover]
  dsimp only
  rw [Option.map_some, cast_negated hv hneg]

theorem toChars_natCast : toChars I base mem first last n = some (toCharsUnsigned I base mem first last n) :=
  if_neg (by omega)

/-- Where the text fits, it is written. -/
theorem toChars_of_le (hv : I.Holds v) (hover : ¬ NegationOverflows I v)
    (h : (representation base v).length ≤ last - first) :
    toChars I base mem first last v =
      some ⟨store mem first (representation base v), first + (representation base v).length, .ok⟩ := by
  by_cases hneg : v < 0
  · rw [representation_of_neg hneg, List.length_cons] at h
    rw [toChars_neg hv hover hneg (by omega), toCharsUnsigned_of_le (by omega), store_cons, representation_of_neg hneg,
      List.length_cons]
    congr 2
    omega
  · obtain ⟨n, rfl⟩ := Int.eq_ofNat_of_zero_le (not_lt.mp hneg)
    rw [representation_natCast] at h ⊢
    rw [toChars_natCast, toCharsUnsigned_of_le h]

/-- Where it does not, nothing is written past the buffer. -/
theorem toChars_of_lt (hv : I.Holds v) (hover : ¬ NegationOverflows I v) (hle : first ≤ last)
    (h : last - first < (representation base v).length) :
    ∃ s, toChars I base mem first last v = some s ∧ s.ec = .valueTooLarge ∧ Outside mem s.mem first last := by
  by_cases hneg : v < 0
  · rw [representation_of_neg hneg, List.length_cons] at h
    by_cases hroom : first < last
    · refine ⟨_, toChars_neg hv hover hneg hroom, ?_⟩
      obtain ⟨hec, hout⟩ : (toCharsUnsigned I.makeUnsigned base (store mem first [minus]) (first + 1) last
            v.natAbs).ec = .valueTooLarge ∧ Outside (store mem first [minus])
              (toCharsUnsigned I.makeUnsigned base (store mem first [minus]) (first + 1) last v.natAbs).mem
              (first + 1) last := toCharsUnsigned_of_lt hroom (by omega)
      refine ⟨hec, ?_⟩
      have hput : Outside mem (store mem first [minus]) first last := by
        intro x hx
        apply store_of_not_mem
        rw [List.length_singleton]
        omega
      exact hput.trans hout
    · refine ⟨⟨mem, first, .valueTooLarge⟩, ?_, rfl, fun _ _ => rfl⟩
      rw [toChars, if_pos hneg, push_of_le (by omega)]
  · obtain ⟨n, rfl⟩ := Int.eq_ofNat_of_zero_le (not_lt.mp hneg)
    rw [representation_natCast] at h
    exact ⟨_, toChars_natCast, toCharsUnsigned_of_lt hle h⟩

/-- Where the negation overflows, no text is made of the number. -/
theorem toChars_of_overflow (h : NegationOverflows I v) (hroom : first < last) :
    toChars I base mem first last v = none := by
  have hneg : v < 0 := by
    obtain ⟨hs, -, rfl⟩ := h
    have hle := I.le_two_pow_width
    rw [IntType.min, if_pos hs]
    omega
  rw [toChars, if_pos hneg, push_of_lt hroom, negate_of_overflow h]
  rfl

end ToChars

end XviOs.Format
