import Mathlib.Tactic
import XviOs.Library.Slices

namespace XviOs.Format

/-- An integer type. The least one is a byte wide. -/
structure IntType where
  signed : Bool
  width : Nat
  eight_le : 8 ≤ width

namespace IntType

def int : IntType := ⟨true, 32, Nat.le_add_right 8 24⟩

variable (I : IntType)

def min : Int := if I.signed then -2 ^ (I.width - 1) else 0

def max : Int := if I.signed then 2 ^ (I.width - 1) - 1 else 2 ^ I.width - 1

def Holds (v : Int) : Prop := I.min ≤ v ∧ v ≤ I.max

instance (v : Int) : Decidable (I.Holds v) := inferInstanceAs (Decidable (_ ∧ _))

def makeUnsigned : IntType := ⟨false, I.width, I.eight_le⟩

/-- The type that an operand is promoted to. -/
def promote : IntType := if I.width < int.width then int else I

/-- The conversion to the type. -/
def cast (v : Int) : Int := if I.signed then v.bmod (2 ^ I.width) else v % 2 ^ I.width

/-- The result of an operation on operands of the type. It is not defined when a signed result overflows. -/
def arith (v : Int) : Option Int :=
  if I.promote.signed then if I.promote.Holds v then some v else none else some (v % 2 ^ I.promote.width)

/-- A value of the type. -/
abbrev Value := {v : Int // I.Holds v}

variable {I} {v : Int}

theorem two_pow_width (I : IntType) : (2 : Int) ^ I.width = 2 * 2 ^ (I.width - 1) := by
  have h := I.eight_le
  rw [← pow_succ']
  congr 1
  omega

theorem le_two_pow_width (I : IntType) : (128 : Int) ≤ 2 ^ (I.width - 1) := by
  have h := I.eight_le
  calc (128 : Int) = 2 ^ 7 := by norm_num
    _ ≤ 2 ^ (I.width - 1) := pow_le_pow_right₀ (by decide) (by omega)

theorem le_max (I : IntType) : 127 ≤ I.max := by
  have hpow := I.two_pow_width
  have hle := I.le_two_pow_width
  rw [max]
  split <;> omega

theorem min_nonpos (I : IntType) : I.min ≤ 0 := by
  have hle := I.le_two_pow_width
  rw [min]
  split <;> omega

theorem cast_of_holds (h : I.Holds v) : I.cast v = v := by
  have hpow := I.two_pow_width
  obtain ⟨hmin, hmax⟩ := h
  rw [min] at hmin
  rw [max] at hmax
  rw [cast]
  split
  · next hs =>
    rw [if_pos hs] at hmin hmax
    apply Int.bmod_eq_of_le_mul_two
    · push_cast
      omega
    · push_cast
      omega
  · next hs =>
    rw [if_neg hs] at hmin hmax
    exact Int.emod_eq_of_lt hmin (by omega)

theorem holds_promote (h : I.Holds v) : I.promote.Holds v := by
  rw [promote]
  split
  · next hlt =>
    have hpow := I.two_pow_width
    have hle : (2 : Int) ^ I.width ≤ 2 ^ 31 := pow_le_pow_right₀ (by decide) (Nat.le_of_lt_succ hlt)
    obtain ⟨hmin, hmax⟩ := h
    rw [min] at hmin
    rw [max] at hmax
    have hlow : int.min = -2 ^ 31 := rfl
    have hhigh : int.max = 2 ^ 31 - 1 := rfl
    rw [Holds, hlow, hhigh]
    by_cases hs : I.signed
    · rw [if_pos hs] at hmin hmax
      omega
    · rw [if_neg hs] at hmin hmax
      omega
  · exact h

/-- No operation whose result is in the type overflows. -/
theorem arith_of_holds (h : I.Holds v) : I.arith v = some v := by
  have hpromote := holds_promote h
  by_cases hs : I.promote.signed
  · rw [arith, if_pos hs, if_pos hpromote]
  · have hcast := cast_of_holds hpromote
    rw [cast, if_neg hs] at hcast
    rw [arith, if_neg hs, hcast]

end IntType

end XviOs.Format

namespace XviOs.Format

open Library.LittleEndian Library.Slices

/-- A base that the conversions take. -/
structure Base where
  val : Nat
  two_le : 2 ≤ val
  le_36 : val ≤ 36

inductive Errc where
  | ok
  | valueTooLarge
  | resultOutOfRange
  | invalidArgument
  deriving DecidableEq

structure ToCharsResult where
  mem : Bytes
  ptr : Nat
  ec : Errc

/-- What `__value` is given, if anything. -/
structure FromCharsResult where
  ptr : Nat
  ec : Errc
  value : Option Int

/-- The table `_C`. -/
def digitChars : List UInt8 :=
  ['0', '1', '2', '3', '4', '5', '6', '7', '8', '9', 'a', 'b', 'c', 'd', 'e', 'f', 'g', 'h', 'i', 'j', 'k', 'l', 'm',
    'n', 'o', 'p', 'q', 'r', 's', 't', 'u', 'v', 'w', 'x', 'y', 'z'].map Char.toUInt8

def digitChar (d : Nat) : UInt8 := digitChars.getD d 0

def minus : UInt8 := '-'.toUInt8

/-- `std::reverse`. -/
def reverse (mem : Bytes) (first last : Nat) : Bytes := store mem first (slice mem first (last - first)).reverse

/-- A character is put where there is room for it. -/
def push (mem : Bytes) (first last : Nat) (c : UInt8) : Option Bytes :=
  if first ≥ last then none else some (store mem first [c])

variable (I : IntType) (base : Base)

theorem cast_base : I.cast base.val = base.val := by
  have h := base.le_36
  have hmax := I.le_max
  have hmin := I.min_nonpos
  apply IntType.cast_of_holds
  constructor <;> omega

def digitLoop (mem : Bytes) (first last : Nat) (value : Int) : ToCharsResult :=
  if _h : 0 < value then
    match push mem first last (digitChar (value.tmod (I.cast base.val)).toNat) with
    | none => ⟨mem, first, .valueTooLarge⟩
    | some mem' => digitLoop mem' (first + 1) last (value.tdiv (I.cast base.val))
  else ⟨mem, first, .ok⟩
termination_by value.toNat
decreasing_by
  have hbase := base.two_le
  have hlt : value / base.val < value := Int.ediv_lt_self_of_pos_of_ne_one _h (by omega)
  rw [cast_base, Int.tdiv_eq_ediv_of_nonneg _h.le]
  omega

/-- `__to_chars` from the value on that is not negative. -/
def toCharsUnsigned (mem : Bytes) (first last : Nat) (value : Int) : ToCharsResult :=
  if value = 0 then
    match push mem first last (digitChar 0) with
    | none => ⟨mem, first, .valueTooLarge⟩
    | some mem' => ⟨mem', first + 1, .ok⟩
  else
    let s := digitLoop I base mem first last value
    if s.ec = .ok then { s with mem := reverse s.mem first s.ptr } else s

def toChars (mem : Bytes) (first last : Nat) (value : Int) : Option ToCharsResult :=
  if value < 0 then
    match push mem first last minus with
    | none => some ⟨mem, first, .valueTooLarge⟩
    | some mem' =>
      (I.arith (-value)).map fun n => toCharsUnsigned I.makeUnsigned base mem' (first + 1) last (I.makeUnsigned.cast n)
  else some (toCharsUnsigned I base mem first last value)

/-- `__make_from_chars_table`. -/
def fromCharsTable : List Int :=
  digitChars.zipIdx.foldl (fun table d => table.set d.1.toNat d.2) (List.replicate 256 (-1))

def readNext (mem : Bytes) (first last : Nat) : Option Int :=
  if first ≥ last then none
  else
    let v := fromCharsTable.getD (mem first).toNat (-1)
    if v < 0 ∨ v ≥ base.val then none else some (I.cast v)

theorem lt_of_readNext {mem : Bytes} {first last : Nat} {i : Int} (h : readNext I base mem first last = some i) :
    first < last := by
  by_contra hge
  rw [readNext, if_pos (by omega)] at h
  exact absurd h (by simp)

def readLoop (mem : Bytes) (first last : Nat) (v : Int) : Option FromCharsResult :=
  match h : readNext I base mem first last with
  | none => some ⟨first, .ok, some v⟩
  | some i =>
    if (I.max - i).tdiv (I.cast base.val) < v then some ⟨first + 1, .resultOutOfRange, none⟩
    else
      (I.arith (v * I.cast base.val)).bind fun x => (I.arith (x + i)).bind fun y =>
        readLoop mem (first + 1) last (I.cast y)
termination_by last - first
decreasing_by
  have := lt_of_readNext I base h
  omega

/-- `__from_chars` from the sign on. -/
def fromCharsUnsigned (mem : Bytes) (first last : Nat) : Option FromCharsResult :=
  (readLoop I base mem first last 0).map fun s =>
    if s.ec = .ok ∧ s.ptr = first then ⟨first, .invalidArgument, none⟩ else s

def fromChars (mem : Bytes) (first last : Nat) : Option FromCharsResult :=
  if first < last ∧ I.signed ∧ mem first = minus then
    (fromCharsUnsigned I.makeUnsigned base mem (first + 1) last).bind fun s =>
      match s.value with
      | none => some ⟨if s.ec = .invalidArgument then first else s.ptr, s.ec, none⟩
      | some uvalue =>
        (I.makeUnsigned.arith (-uvalue)).map fun n =>
          -- the value that the sign gives has to be one of the type
          if I.cast n > 0 then ⟨s.ptr, .resultOutOfRange, none⟩ else ⟨s.ptr, .ok, some (I.cast n)⟩
  else fromCharsUnsigned I base mem first last

/-- The text of a number that is not negative. -/
def magnitude (n : Nat) : List UInt8 :=
  if n = 0 then [digitChar 0] else ((Nat.digits base.val n).map digitChar).reverse

/-- The text of a number. -/
def representation (v : Int) : List UInt8 := (if v < 0 then [minus] else []) ++ magnitude base v.natAbs

end XviOs.Format
