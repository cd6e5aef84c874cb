import XviOs.Library.ByteCoding

namespace XviOs.ByteBuffer

open Library.ByteOrder

/-- The sizes of the integers whose bytes can be swapped. -/
inductive Width
  | one
  | two
  | four
  | eight
  deriving DecidableEq

def Width.size : Width → ℕ
  | one => 1
  | two => 2
  | four => 4
  | eight => 8

structure IntType where
  width : Width
  signed : Bool

namespace IntType

def size (t : IntType) : ℕ := t.width.size

/-- One more than the greatest unsigned value. -/
def modulus (t : IntType) : ℕ := 256 ^ t.size

def InRange (t : IntType) (x : ℤ) : Prop :=
  if t.signed then -(t.modulus / 2 : ℤ) ≤ x ∧ x < t.modulus / 2 else 0 ≤ x ∧ x < t.modulus

def Value (t : IntType) : Type := { x : ℤ // t.InRange x }

/-- The value of the type that is the same up to multiples of the modulus. -/
def wrap (t : IntType) (x : ℤ) : ℤ := if t.signed then x.bmod t.modulus else x % t.modulus

/-- The conversion to the unsigned type. -/
def toUnsigned (t : IntType) (x : t.Value) : ℕ := (x.1 % t.modulus).toNat

variable {t : IntType} {x : ℤ}

theorem modulus_pos (t : IntType) : 0 < t.modulus := Nat.pow_pos (by decide)

theorem size_pos (t : IntType) : 0 < t.size := by
  rw [size]
  cases t.width <;> decide

theorem even_modulus (t : IntType) : t.modulus % 2 = 0 :=
  Nat.mod_eq_zero_of_dvd (dvd_pow (by norm_num) t.size_pos.ne')

theorem wrap_inRange (t : IntType) (x : ℤ) : t.InRange (t.wrap x) := by
  have hpos := t.modulus_pos
  have heven := t.even_modulus
  rw [InRange, wrap]
  split_ifs with hsigned
  · have hle := Int.le_bmod (x := x) hpos
    have hlt := Int.bmod_lt (x := x) hpos
    omega
  · exact ⟨Int.emod_nonneg x (by omega), Int.emod_lt_of_pos x (by omega)⟩

theorem wrap_of_inRange (h : t.InRange x) : t.wrap x = x := by
  have hpos := t.modulus_pos
  have heven := t.even_modulus
  rw [InRange] at h
  rw [wrap]
  split_ifs at h ⊢ with hsigned
  · exact Int.bmod_eq_of_le (by omega) (by omega)
  · exact Int.emod_eq_of_lt h.1 h.2

theorem wrap_emod (t : IntType) (x : ℤ) : t.wrap (x % t.modulus) = t.wrap x := by
  rw [wrap, wrap]
  split_ifs
  · exact Int.emod_bmod ..
  · exact Int.emod_emod_of_dvd x (dvd_refl _)

/-- The conversion of an integer. -/
def convert (t : IntType) (x : ℤ) : t.Value := ⟨t.wrap x, t.wrap_inRange x⟩

theorem convert_value (x : t.Value) : t.convert x.1 = x := Subtype.ext (wrap_of_inRange x.2)

theorem toUnsigned_lt (x : t.Value) : t.toUnsigned x < t.modulus := by
  have hpos := t.modulus_pos
  have hlt := Int.emod_lt_of_pos x.1 (show (0 : ℤ) < t.modulus by omega)
  rw [toUnsigned]
  omega

theorem convert_toUnsigned (x : t.Value) : t.convert (t.toUnsigned x) = x := by
  have hpos := t.modulus_pos
  have hnonneg := Int.emod_nonneg x.1 (show (t.modulus : ℤ) ≠ 0 by omega)
  apply Subtype.ext
  change t.wrap ((x.1 % t.modulus).toNat : ℤ) = x.1
  rw [Int.toNat_of_nonneg hnonneg, wrap_emod, wrap_of_inRange x.2]

theorem toUnsigned_convert {n : ℕ} (h : n < t.modulus) : t.toUnsigned (t.convert n) = n := by
  have hwrap : t.wrap n % t.modulus = (n : ℤ) := by
    rw [wrap]
    split_ifs
    · rw [Int.bmod_emod, Int.emod_eq_of_lt (by omega) (by omega)]
    · rw [Int.emod_emod_of_dvd _ (dvd_refl _), Int.emod_eq_of_lt (by omega) (by omega)]
  change (t.wrap n % t.modulus).toNat = n
  rw [hwrap, Int.toNat_natCast]

end IntType

variable {t : IntType}

/-- The compiler's `__builtin_bswap16` and the others. -/
def builtinSwap (n v : ℕ) : ℕ := valueOf (bytesOf n v).reverse

def byteSwap (x : t.Value) : t.Value := t.convert (builtinSwap t.size (t.toUnsigned x))

/-- A value whose bytes are swapped or not. -/
structure EndianType (t : IntType) (swapped : Bool) where
  store : t.Value

namespace EndianType

variable {swapped : Bool}

def bswap (swapped : Bool) (x : t.Value) : t.Value := if swapped then byteSwap x else x

def ofValue (x : t.Value) : EndianType t swapped := ⟨bswap swapped x⟩

def value (x : EndianType t swapped) : t.Value := bswap swapped x.store

end EndianType

/-- A value in an order, on a machine whose own order is `native`. -/
abbrev FixedEndianType (native : Endian) (t : IntType) (e : Endian) : Type := EndianType t (decide (e ≠ native))

/-- The bytes of the object on the machine. -/
def objectBytes (native : Endian) (x : t.Value) : List UInt8 := native.arrange (bytesOf t.size (t.toUnsigned x))

def ofObjectBytes (native : Endian) (raw : List UInt8) : t.Value := t.convert (valueOf (native.arrange raw))

/-- The bytes of a value in an order, the same on every machine. -/
def encode (e : Endian) (x : t.Value) : List UInt8 := e.arrange (bytesOf t.size (t.toUnsigned x))

@[simp]
theorem length_encode (e : Endian) (x : t.Value) : (encode e x).length = t.size := by
  rw [encode, Endian.length_arrange, length_bytesOf]

theorem builtinSwap_lt (n v : ℕ) : builtinSwap n v < 256 ^ n := by
  have h := valueOf_lt (bytesOf n v).reverse
  rwa [List.length_reverse, length_bytesOf] at h

theorem bytesOf_builtinSwap (n v : ℕ) : bytesOf n (builtinSwap n v) = (bytesOf n v).reverse := by
  have h := bytesOf_valueOf (bytesOf n v).reverse
  rwa [List.length_reverse, length_bytesOf] at h

theorem toUnsigned_byteSwap (x : t.Value) : t.toUnsigned (byteSwap x) = builtinSwap t.size (t.toUnsigned x) :=
  IntType.toUnsigned_convert (builtinSwap_lt _ _)

theorem byteSwap_byteSwap (x : t.Value) : byteSwap (byteSwap x) = x := by
  have hswap : builtinSwap t.size (builtinSwap t.size (t.toUnsigned x)) = t.toUnsigned x := by
    conv_lhs => rw [builtinSwap]
    rw [bytesOf_builtinSwap, List.reverse_reverse]
    exact valueOf_bytesOf_of_lt (IntType.toUnsigned_lt x)
  rw [byteSwap, toUnsigned_byteSwap, hswap, IntType.convert_toUnsigned]

theorem EndianType.value_ofValue (swapped : Bool) (x : t.Value) : (ofValue x : EndianType t swapped).value = x := by
  cases swapped with
  | false => rfl
  | true => exact byteSwap_byteSwap x

theorem objectBytes_store (native e : Endian) (x : t.Value) :
    objectBytes native (EndianType.ofValue x : FixedEndianType native t e).store = encode e x := by
  change objectBytes native (EndianType.bswap (decide (e ≠ native)) x) = encode e x
  rw [EndianType.bswap]
  by_cases h : e = native
  · obtain rfl := h
    rw [if_neg (by simp)]
    rfl
  · rw [if_pos (decide_eq_true h), objectBytes, toUnsigned_byteSwap, bytesOf_builtinSwap]
    exact Endian.arrange_reverse_of_ne h _

theorem ofObjectBytes_objectBytes (native : Endian) (x : t.Value) :
    ofObjectBytes native (objectBytes native x) = x := by
  rw [ofObjectBytes, objectBytes, Endian.arrange_arrange, valueOf_bytesOf_of_lt (IntType.toUnsigned_lt x),
    IntType.convert_toUnsigned]

end XviOs.ByteBuffer
