import Mathlib.Tactic
import XviOs.Format.CharConvSpec

namespace XviOs.Format

open Library.LittleEndian Library.Slices

variable {I : IntType} {base : Base} {mem : Bytes} {first last n : Nat} {v : Int}

/-- The number that digits stand for, the highest first. -/
def horner (b : Nat) (ds : List Nat) (v : Nat) : Nat := ds.foldl (fun v d => v * b + d) v

theorem le_horner {b : Nat} (hb : 1 ≤ b) (ds : List Nat) (v : Nat) : v ≤ horner b ds v := by
  induction ds generalizing v with
  | nil => exact le_rfl
  | cons d ds ih =>
    calc v ≤ v * b := Nat.le_mul_of_pos_right v hb
      _ ≤ v * b + d := Nat.le_add_right _ _
      _ ≤ horner b (d :: ds) v := ih _

theorem horner_digits (b n : Nat) : horner b (Nat.digits b n).reverse 0 = n := by
  rw [horner, List.foldl_reverse]
  have hfold : (fun x y : Nat => y * b + x) = fun x y => x + b * y := by
    funext x y
    rw [Nat.add_comm, Nat.mul_comm]
  have hdigits := Nat.ofDigits_digits b n
  rw [Nat.ofDigits_eq_foldr] at hdigits
  simpa [hfold] using hdigits

theorem fromCharsTable_digitChar : ∀ d < 36, fromCharsTable.getD (digitChar d).toNat (-1) = d := by
  decide +kernel

theorem digitChar_ne_minus : ∀ d < 36, digitChar d ≠ minus := by
  decide +kernel

/-- The text of a number is that of its digits. -/
theorem magnitude_eq (base : Base) (n : Nat) :
    ∃ ds : List Nat, magnitude base n = ds.map digitChar ∧ (∀ d ∈ ds, d < base.val) ∧
      horner base.val ds 0 = n ∧ ds ≠ [] := by
  have hbase := base.two_le
  obtain rfl | hn := Nat.eq_zero_or_pos n
  · refine ⟨[0], magnitude_zero, ?_, by simp [horner], by simp⟩
    intro d hd
    rw [List.mem_singleton.mp hd]
    omega
  · refine ⟨(Nat.digits base.val n).reverse, ?_, ?_, horner_digits _ _, ?_⟩
    · rw [magnitude, if_neg (by omega), List.map_reverse]
    · intro d hd
      exact Nat.digits_lt_base hbase (List.mem_reverse.mp hd)
    · rw [digits_pos hn]
      simp

theorem readNext_digit {d : Nat} (hd : d < base.val) (h : first < last) (hmem : mem first = digitChar d) :
    readNext I base mem first last = some (d : Int) := by
  have hbase := base.le_36
  have hmax := I.le_max
  have hmin := I.min_nonpos
  have hcast : I.cast d = d := IntType.cast_of_holds (by constructor <;> omega)
  rw [readNext, if_neg (by omega), hmem, fromCharsTable_digitChar d (by omega)]
  dsimp only
  rw [if_neg (by omega), hcast]

theorem readNext_end : readNext I base mem last last = none := if_pos (le_refl last)

/-- The test whether another digit can be added is exact. -/
theorem room_iff {d w : Nat} (hd : d < base.val) : (I.max - d).tdiv base.val < w ↔ I.max < (w * base.val + d : Nat) := by
  have hbase := base.two_le
  have hbase' := base.le_36
  have hIMax := I.le_max
  have hmul : ((w : Int) * base.val) = (w * base.val : Nat) := by push_cast; rfl
  rw [Int.tdiv_eq_ediv_of_nonneg (by omega), Int.ediv_lt_iff_lt_mul (by omega), hmul]
  push_cast
  omega

/-- A digit is added where the value stays in the type. -/
theorem readLoop_next {d w : Nat} (hd : d < base.val) (hnext : readNext I base mem first last = some (d : Int))
    (hmax : (w * base.val + d : Nat) ≤ I.max) :
    readLoop I base mem first last w = readLoop I base mem (first + 1) last (w * base.val + d : Nat) := by
  have hIMin := I.min_nonpos
  have hmul : ((w : Int) * base.val) = (w * base.val : Nat) := by push_cast; rfl
  have hsum : ((w * base.val : Nat) : Int) + d = (w * base.val + d : Nat) := by push_cast; rfl
  have hroom : ¬ (I.max - d).tdiv base.val < w := by
    rw [room_iff hd]
    omega
  rw [readLoop]
  split
  · next hnone => rw [hnext] at hnone; exact absurd hnone (by simp)
  · next i hsome =>
    obtain rfl : (d : Int) = i := Option.some_inj.mp (hnext.symm.trans hsome)
    rw [cast_base, if_neg hroom, hmul, IntType.arith_of_holds (by constructor <;> omega), Option.bind_some, hsum,
      IntType.arith_of_holds (by constructor <;> omega), Option.bind_some,
      IntType.cast_of_holds (by constructor <;> omega)]

theorem readLoop_digit {d w : Nat} (hd : d < base.val) (h : first < last) (hmem : mem first = digitChar d)
    (hmax : (w * base.val + d : Nat) ≤ I.max) :
    readLoop I base mem first last w = readLoop I base mem (first + 1) last (w * base.val + d : Nat) :=
  readLoop_next hd (readNext_digit hd h hmem) hmax

theorem readLoop_end (w : Nat) : readLoop I base mem last last w = some ⟨last, .ok, some (w : Int)⟩ := by
  rw [readLoop]
  split
  · rfl
  · next i hsome => rw [readNext_end] at hsome; exact absurd hsome (by simp)

/-- Digits whose number is in the type are all read. -/
theorem readLoop_digits {ds : List Nat} (hds : ∀ d ∈ ds, d < base.val) (w : Nat)
    (htext : slice mem first ds.length = ds.map digitChar) (hmax : (horner base.val ds w : Nat) ≤ I.max) :
    readLoop I base mem first (first + ds.length) w =
      some ⟨first + ds.length, .ok, some (horner base.val ds w : Int)⟩ := by
  induction ds generalizing first w with
  | nil => exact readLoop_end w
  | cons d ds ih =>
    have hle : w * base.val + d ≤ horner base.val (d :: ds) w :=
      le_horner (Nat.le_of_lt base.two_le) ds (w * base.val + d)
    have hcons : slice mem first (d :: ds).length = mem first :: slice mem (first + 1) ds.length := by
      rw [List.length_cons, Nat.add_comm, ← slice_append]
      rfl
    rw [hcons, List.map_cons, List.cons.injEq] at htext
    have hend : first + (d :: ds).length = first + 1 + ds.length := by
      rw [List.length_cons]
      omega
    rw [hend, readLoop_digit (hds d List.mem_cons_self) (by omega) htext.1 (by omega),
      ih (fun e he => hds e (List.mem_cons_of_mem d he)) _ htext.2 hmax]
    rfl

theorem fromCharsUnsigned_magnitude (htext : slice mem first (magnitude base n).length = magnitude base n)
    (hmax : n ≤ I.max) :
    fromCharsUnsigned I base mem first (first + (magnitude base n).length) =
      some ⟨first + (magnitude base n).length, .ok, some (n : Int)⟩ := by
  obtain ⟨ds, hds, hlt, hval, hne⟩ := magnitude_eq base n
  have hpos : 0 < ds.length := List.length_pos_iff.mpr hne
  rw [hds, List.length_map] at htext ⊢
  have hread := readLoop_digits (I := I) hlt 0 htext (by rw [hval]; exact hmax)
  rw [hval] at hread
  rw [fromCharsUnsigned, show (0 : Int) = (0 : Nat) from rfl, hread, Option.map_some, if_neg]
  rintro ⟨-, hptr⟩
  dsimp only at hptr
  omega

/-- The unsigned value that is negated is taken modulo the values of the type. -/
theorem cast_negated_unsigned (hs : I.signed) {u : Int} (h0 : 0 ≤ u) (hu : u < 2 ^ I.width) :
    ∃ m, I.makeUnsigned.arith (-u) = some m ∧ I.cast m = (-u).bmod (2 ^ I.width) := by
  by_cases hwidth : I.width < IntType.int.width
  · have hpromote : I.makeUnsigned.promote = IntType.int := if_pos hwidth
    have hle : (2 : Int) ^ I.width ≤ 2 ^ 31 := pow_le_pow_right₀ (by decide) (Nat.le_of_lt_succ hwidth)
    have hint : IntType.int.Holds (-u) := by
      have hlow : IntType.int.min = -2 ^ 31 := rfl
      have hhigh : IntType.int.max = 2 ^ 31 - 1 := rfl
      rw [IntType.Holds, hlow, hhigh]
      omega
    refine ⟨-u, ?_, by rw [IntType.cast, if_pos hs]⟩
    rw [IntType.arith, hpromote, if_pos (show IntType.int.signed = true from rfl), if_pos hint]
  · have hpromote : I.makeUnsigned.promote = I.makeUnsigned := if_neg hwidth
    refine ⟨-u % 2 ^ I.width, ?_, ?_⟩
    · rw [IntType.arith, hpromote, if_neg (show ¬ I.makeUnsigned.signed = true from Bool.false_ne_true)]
      rfl
    · have hmod := Int.emod_bmod (-u) (2 ^ I.width)
      push_cast at hmod
      rw [IntType.cast, if_pos hs, hmod]

/-- The unsigned value that is negated becomes the value of the type again, the least one too. -/
theorem cast_negate (hv : I.Holds v) (hneg : v < 0) :
    ∃ m, I.makeUnsigned.arith (-(v.natAbs : Int)) = some m ∧ I.cast m = v := by
  have hs := signed_of_neg hv hneg
  have hpow := I.two_pow_width
  have hmin := hv.1
  rw [IntType.min, if_pos hs] at hmin
  obtain ⟨m, hm, hcast⟩ : ∃ m, I.makeUnsigned.arith (-(v.natAbs : Int)) = some m ∧
      I.cast m = (-(v.natAbs : Int)).bmod (2 ^ I.width) := cast_negated_unsigned hs (by omega) (by omega)
  have hself := IntType.cast_of_holds hv
  rw [IntType.cast, if_pos hs] at hself
  refine ⟨m, hm, hcast.trans ?_⟩
  rw [show -(v.natAbs : Int) = v by omega, hself]

theorem magnitude_head (htext : slice mem first (magnitude base n).length = magnitude base n) : mem first ≠ minus := by
  have hbase := base.le_36
  obtain ⟨ds, hds, hlt, -, hne⟩ := magnitude_eq base n
  cases ds with
  | nil => exact absurd rfl hne
  | cons d ds =>
    rw [hds, List.map_cons, List.length_cons, slice_cons, List.cons.injEq] at htext
    rw [htext.1]
    have hd := hlt d List.mem_cons_self
    exact digitChar_ne_minus d (by omega)

/-- The text of a number is read as the number. -/
theorem fromChars_representation (hv : I.Holds v)
    (htext : slice mem first (representation base v).length = representation base v) :
    fromChars I base mem first (first + (representation base v).length) =
      some ⟨first + (representation base v).length, .ok, some v⟩ := by
  by_cases hneg : v < 0
  · have hs := signed_of_neg hv hneg
    have habs : v.natAbs ≤ I.makeUnsigned.max := by
      have hpow := I.two_pow_width
      have hmin := hv.1
      have hmax : I.makeUnsigned.max = 2 ^ I.width - 1 := rfl
      rw [IntType.min, if_pos hs] at hmin
      omega
    obtain ⟨m, hm, hcast⟩ := cast_negate hv hneg
    rw [representation_of_neg hneg, List.length_cons, slice_cons, List.cons.injEq] at htext
    have hend : first + (representation base v).length = first + 1 + (magnitude base v.natAbs).length := by
      rw [representation_of_neg hneg, List.length_cons]
      omega
    rw [hend, fromChars, if_pos ⟨by omega, hs, htext.1⟩, fromCharsUnsigned_magnitude htext.2 habs, Option.bind_some]
    dsimp only
    rw [hm, Option.map_some, hcast, if_neg (by omega)]
  · obtain ⟨n, rfl⟩ := Int.eq_ofNat_of_zero_le (not_lt.mp hneg)
    rw [representation_natCast] at htext ⊢
    rw [fromChars, if_neg fun h => magnitude_head htext h.2.2, fromCharsUnsigned_magnitude htext hv.2]

/-- A large enough buffer gets the text, and the text is read as the number. -/
def RoundTrips (I : IntType) (base : Base) (v : Int) : Prop :=
  ∀ mem first n, (representation base v).length ≤ n →
    ∃ s, toChars I base mem first (first + n) v = some s ∧ s.ec = .ok ∧
      slice s.mem first (s.ptr - first) = representation base v ∧ Outside mem s.mem first (first + n) ∧
      fromChars I base s.mem first s.ptr = some ⟨s.ptr, .ok, some v⟩

/-- A buffer is reported as too small exactly when it is shorter than the text, and nothing is written past it. -/
def ReportsTooLarge (I : IntType) (base : Base) (v : Int) : Prop :=
  ∀ mem first n, ∃ s, toChars I base mem first (first + n) v = some s ∧
    (s.ec = .valueTooLarge ↔ n < (representation base v).length) ∧ Outside mem s.mem first (first + n)

theorem roundTrips (hv : I.Holds v) (hover : ¬ NegationOverflows I v) : RoundTrips I base v := by
  intro mem first n hn
  refine ⟨_, toChars_of_le hv hover (by omega), rfl, ?_, outside_store mem hn, ?_⟩
  · rw [Nat.add_sub_cancel_left, slice_store_self]
  · exact fromChars_representation hv (slice_store_self mem first _)

theorem reportsTooLarge (hv : I.Holds v) (hover : ¬ NegationOverflows I v) : ReportsTooLarge I base v := by
  intro mem first n
  by_cases hn : (representation base v).length ≤ n
  · exact ⟨_, toChars_of_le hv hover (by omega), iff_of_false (by simp) (by omega), outside_store mem hn⟩
  · obtain ⟨s, hs, hec, hout⟩ : ∃ s, toChars I base mem first (first + n) v = some s ∧ s.ec = .valueTooLarge ∧
        Outside mem s.mem first (first + n) := toChars_of_lt hv hover (Nat.le_add_right first n) (by omega)
    exact ⟨s, hs, iff_of_true hec (by omega), hout⟩

/-- Every value goes through its text and back but the least one of a signed type that is not promoted. -/
theorem toChars_fromChars_iff (I : IntType) (base : Base) (v : I.Value) :
    (RoundTrips I base v ∧ ReportsTooLarge I base v) ↔ ¬ NegationOverflows I v := by
  constructor
  · rintro ⟨hround, -⟩ hover
    obtain ⟨s, hs, -⟩ := hround (fun _ => 0) 0 _ (Nat.le_succ _)
    rw [toChars_of_overflow hover (by omega)] at hs
    exact absurd hs (by simp)
  · intro hover
    exact ⟨roundTrips v.property hover, reportsTooLarge v.property hover⟩

/-- The least `int`, in the decimal base. -/
theorem toChars_int_min :
    ¬ ∀ (I : IntType) (base : Base) (v : I.Value), RoundTrips I base v ∧ ReportsTooLarge I base v := by
  intro h
  obtain ⟨-, hreports⟩ := h IntType.int ⟨10, by decide, by decide⟩ ⟨-2147483648, by decide⟩
  obtain ⟨s, hs, -⟩ := hreports (fun _ => 0) 0 11
  have hnone : toChars IntType.int ⟨10, by decide, by decide⟩ (fun _ => 0) 0 (0 + 11) (-2147483648) = none := rfl
  rw [hnone] at hs
  exact absurd hs (by simp)

end XviOs.Format
