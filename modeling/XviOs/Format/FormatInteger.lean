import XviOs.Format.CharConvSpec
import XviOs.Format.FormatSpec

namespace XviOs.Format

/-- An output iterator: `*it = c` and `++it`. A part of its state may be in a destination `D` behind it. -/
structure OutputIterator (I D : Type) where
  assign : I → D → CharT → D
  increment : I → D → I × D

namespace OutputIterator

variable {I D : Type} (o : OutputIterator I D)

def put (p : I × D) (c : CharT) : I × D := o.increment p.1 (o.assign p.1 p.2 c)

/-- `std::ranges::copy` -/
def copy (text : List CharT) (p : I × D) : I × D := text.foldl o.put p

/-- `std::ranges::fill_n` -/
def fillN (p : I × D) (n : Int) (c : CharT) : I × D := (fun p => o.put p c)^[n.toNat] p

theorem copy_append (text text' : List CharT) (p : I × D) : o.copy (text ++ text') p = o.copy text' (o.copy text p) :=
  List.foldl_append

theorem copy_cons (c : CharT) (text : List CharT) (p : I × D) : o.copy (c :: text) p = o.copy text (o.put p c) := rfl

theorem fillN_eq (p : I × D) (n : Int) (c : CharT) : o.fillN p n c = o.copy (List.replicate n.toNat c) p := by
  rw [fillN]
  induction n.toNat generalizing p with
  | zero => rfl
  | succ k ih =>
    rw [Function.iterate_succ_apply, ih]
    rfl

end OutputIterator

/-- `std::back_insert_iterator` -/
def backInserter : OutputIterator Unit (List CharT) where
  assign _ text c := text ++ [c]
  increment it text := (it, text)

theorem copy_backInserter (text : List CharT) :
    ∀ p : Unit × List CharT, backInserter.copy text p = ((), p.2 ++ text) := by
  induction text with
  | nil =>
    intro p
    simp [OutputIterator.copy]
  | cons c text ih =>
    intro p
    rw [OutputIterator.copy_cons, ih]
    simp [OutputIterator.put, backInserter]

section Prepare

/-- The argument of a replacement field, as it is stored. A C string is the memory from its pointer on. A handle stands
for a formatter of its own: what it reads of the parse context and what it writes. -/
inductive Arg where
  | bool (b : Bool)
  | char (c : CharT)
  | integer (T : IntType) (v : T.Value)
  | floating
  | cstring (memory : List CharT)
  | stringView (s : List CharT)
  | voidPtr (address : Nat)
  | handle (format : ParseContext → Result (List CharT × ParseContext))

/-- The kinds of types that the formatters of the library are for. -/
inductive ArgType where
  | bool
  | char
  | integer
  | floating
  | cstring
  | stringView
  | voidPtr
  deriving DecidableEq

def isIntegralPresentation (spec : FormatSpec) : Bool :=
  match spec.type with
  | .b | .B | .d | .o | .x | .X => true
  | _ => false

def isArithmeticType : ArgType → Bool
  | .cstring | .voidPtr | .integer | .floating => true
  | .bool | .char | .stringView => false

def treatAsArithmetic (T : ArgType) (spec : FormatSpec) : Bool :=
  if isIntegralPresentation spec then true
  else if spec.type = .c then false
  else isArithmeticType T

def resolvePresentation (T : ArgType) (spec : FormatSpec) : FormatSpec :=
  if spec.type ≠ .default then spec
  else { spec with type :=
    match T with
    | .cstring | .stringView => .s
    | .char => .c
    | .bool => .s
    | .integer => .d
    | .floating => if spec.precision = .none then .floatingPoint else .g
    | .voidPtr => .p }

def resolveAlignment (T : ArgType) (spec : FormatSpec) : FormatSpec :=
  if spec.align ≠ .default then spec
  else { spec with implicitAlignment := true, align := if treatAsArithmetic T spec then .end else .begin }

/-- The value of an argument that gives a width or a precision. -/
def wpValue (what : String) (bad : Int → Bool) (range : String) (args : List Arg) (id : Nat) : Result Nat :=
  match args[id]? with
  | none => formatError "visiting empty format arg"
  | some (.char c) => if bad c then formatError ("invalid " ++ what ++ " argument: " ++ range) else .ok c.toNat
  | some (.integer _ v) =>
    if bad v.val then formatError ("invalid " ++ what ++ " argument: " ++ range)
    else if v.val > sizeT.max then formatError ("invalid " ++ what ++ " argument: overflow")
    else .ok v.val.toNat
  | some _ => formatError ("invalid " ++ what ++ " argument: not an integral type")

def isRuntime : WpType → Bool
  | .runtimeArgExplicit | .runtimeArgImplicit => true
  | .none | .fixed => false

def resolveWidth (args : List Arg) (spec : FormatSpec) : Result FormatSpec :=
  if isRuntime spec.width then do
    let width ← wpValue "width" (· ≤ 0) "must be a positive value" args spec.widthVal
    return { spec with width := .fixed, widthVal := width }
  else .ok spec

def resolvePrecision (args : List Arg) (spec : FormatSpec) : Result FormatSpec :=
  if isRuntime spec.precision then do
    let precision ← wpValue "precision" (· < 0) "must be a non-negative value" args spec.precisionVal
    return { spec with precision := .fixed, precisionVal := precision }
  else .ok spec

def resolveWp (args : List Arg) (spec : FormatSpec) : Result FormatSpec := do
  resolvePrecision args (← resolveWidth args spec)

def checkSpec (T : ArgType) (spec : FormatSpec) : Result Unit :=
  if !treatAsArithmetic T spec ∧ spec.sign ≠ .implicitDefault then
    formatError "non-arithmetic fields cannot have signs"
  else if !treatAsArithmetic T spec ∧ spec.zeroPad then formatError "non-arithmetic fields cannot be zero-padded"
  else if !treatAsArithmetic T spec ∧ spec.altForm then
    formatError "non-arithmetic fields cannot be printed in alternate form"
  else if spec.precision ≠ .none ∧ T ≠ .floating ∧ spec.type ≠ .s then
    formatError "precision is valid only for floating-point types or string presentation"
  else if spec.localeSpecific ∧ (T ∉ [.bool, .char, .integer, .floating] ∨ spec.type = .c) then
    formatError "locale-specific output is valid only for arithmetic types and bool string presentation"
  else .ok ()

def prepare (T : ArgType) (args : List Arg) (spec : FormatSpec) : Result FormatSpec := do
  let spec ← resolveWp args (resolveAlignment T (resolvePresentation T spec))
  checkSpec T spec
  return spec

end Prepare

section Output

variable {I D : Type} (o : OutputIterator I D)

/-- The fill that the width asks for, in the iterator's difference type. -/
def fillSize (spec : FormatSpec) (estWidth : Nat) : Int :=
  if spec.width ≠ .none ∧ estWidth < spec.widthVal then ptrdiffT.cast (spec.widthVal - estWidth) else 0

/-- The fill before the text and the fill after it. -/
def splitFill (align : Align) (fill : Int) : Int × Int :=
  match align with
  | .begin => (0, fill)
  | .middle => (fill.tdiv 2, fill - fill.tdiv 2)
  | .end => (fill, 0)
  | .default => (0, 0)

def doOutput (spec : FormatSpec) (out : I × D) (formatted : List CharT) : I × D :=
  let (preFill, postFill) := splitFill spec.align (fillSize spec formatted.length)
  let out := o.fillN out preFill spec.fillChar
  let out := o.copy formatted out
  o.fillN out postFill spec.fillChar

/-- The array `__arr` and the number of its elements that are still free. They are those in front. -/
structure Buffer where
  arr : List CharT
  free : Nat

/-- `*__ptr-- = c` -/
def Buffer.push (b : Buffer) (c : CharT) : Result Buffer :=
  match b.free with
  | 0 => .error .undefined
  | k + 1 => .ok ⟨b.arr.set k c, k⟩

def Buffer.view (b : Buffer) : List CharT := b.arr.drop b.free

/-- `std::numeric_limits::digits` -/
def numericDigits (T : IntType) : Nat := if T.signed then T.width - 1 else T.width

def maxLen (T : IntType) : Nat := 2 + 1 + numericDigits T

def Buffer.new (T : IntType) : Buffer := ⟨List.replicate (maxLen T) 0, maxLen T⟩

def radix : Presentation → Nat
  | .b | .B => 2
  | .o => 8
  | .x | .X => 16
  | _ => 10

/-- The prefix as its two characters. The second one of a shorter prefix is 0. -/
def prefixOf (spec : FormatSpec) (n : Int) : Option (CharT × CharT) :=
  match spec.type with
  | .b => if spec.altForm then some (lit '0', lit 'b') else none
  | .B => if spec.altForm then some (lit '0', lit 'B') else none
  | .o => if spec.altForm ∧ n ≠ 0 then some (lit '0', 0) else none
  | .x => if spec.altForm then some (lit '0', lit 'x') else none
  | .X => if spec.altForm then some (lit '0', lit 'X') else none
  | _ => none

/-- The sign, which is 0 for none, and the absolute value. -/
def signOf (T : IntType) (spec : FormatSpec) (n : Int) : Result (CharT × Nat) :=
  if n < 0 then
    match T.arith (-n) with
    | none => .error .undefined
    | some m => .ok (lit '-', (T.makeUnsigned.cast m).toNat)
  else
    .ok (match spec.sign with | .always => lit '+' | .leadingSpace => lit ' ' | _ => 0, (T.makeUnsigned.cast n).toNat)

/-- The tables `__convL` and `__convU`. -/
def conv (type : Presentation) (d : Nat) : CharT :=
  ((if type = .X then "0123456789ABCDEF" else "0123456789abcdef").toList.map lit).getD d 0

theorem two_le_radix (type : Presentation) : 2 ≤ radix type := by
  cases type <;> simp [radix]

def writeDigits (type : Presentation) (un : Nat) (b : Buffer) : Result Buffer :=
  if _h : 0 < un then do
    let b ← b.push (conv type (un % radix type))
    writeDigits type (un / radix type) b
  else .ok b
termination_by un
decreasing_by exact Nat.div_lt_self _h (two_le_radix type)

/-- The digits, with a special case for zero. -/
def writeMagnitude (type : Presentation) (un : Nat) (b : Buffer) : Result Buffer :=
  if un ≠ 0 then writeDigits type un b else b.push (lit '0')

def pushPrefix (pre : Option (CharT × CharT)) (b : Buffer) : Result Buffer :=
  match pre with
  | none => .ok b
  | some (c0, c1) => if c1 ≠ 0 then b.push c1 >>= fun b => b.push c0 else b.push c0

def pushSign (sign : CharT) (b : Buffer) : Result Buffer := if sign ≠ 0 then b.push sign else .ok b

/-- The sign put out before the zeros, with the number of characters. -/
def putSign (sign : CharT) (out : I × D) : (I × D) × Nat := if sign ≠ 0 then (o.put out sign, 1) else (out, 0)

/-- The prefix after it. -/
def putPrefix (pre : Option (CharT × CharT)) (out : (I × D) × Nat) : (I × D) × Nat :=
  match pre with
  | none => out
  | some (c0, c1) => if c1 ≠ 0 then (o.put (o.put out.1 c0) c1, out.2 + 2) else (o.put out.1 c0, out.2 + 1)

def formatInteger (T : IntType) (spec : FormatSpec) (out : I × D) (n : Int) : Result (I × D) := do
  let (sign, un) ← signOf T spec n
  let b ← writeMagnitude spec.type un (Buffer.new T)
  if spec.zeroPad ∧ spec.implicitAlignment then
    -- the zeros go between the prefix and the digits
    let (out, prefixLen) := putPrefix o (prefixOf spec n) (putSign o sign out)
    let widthVal := if spec.widthVal > prefixLen then spec.widthVal - prefixLen else 1
    return doOutput o { spec with widthVal, fillChar := lit '0' } out b.view
  else
    let b ← pushPrefix (prefixOf spec n) b
    let b ← pushSign sign b
    return doOutput o spec out b.view

end Output

section Text

def signText (spec : FormatSpec) (n : Int) : List CharT :=
  if n < 0 then [lit '-']
  else match spec.sign with
    | .always => [lit '+']
    | .leadingSpace => [lit ' ']
    | _ => []

/-- The base prefix of the alternative form. Zero in base 8 is its own prefix. -/
def prefixText (spec : FormatSpec) (n : Int) : List CharT :=
  match spec.altForm, spec.type with
  | true, .b => [lit '0', lit 'b']
  | true, .B => [lit '0', lit 'B']
  | true, .o => if n = 0 then [] else [lit '0']
  | true, .x => [lit '0', lit 'x']
  | true, .X => [lit '0', lit 'X']
  | _, _ => []

def digitsText (type : Presentation) (n : Nat) : List CharT :=
  if n = 0 then [lit '0'] else ((Nat.digits (radix type) n).map (conv type)).reverse

/-- The text with `k` fill characters. -/
def pad (align : Align) (fill : CharT) (k : Nat) (text : List CharT) : List CharT :=
  match align with
  | .begin => text ++ List.replicate k fill
  | .middle => List.replicate (k / 2) fill ++ text ++ List.replicate (k - k / 2) fill
  | .end | .default => List.replicate k fill ++ text

/-- The sign, the prefix and the digits. -/
def bodyText (spec : FormatSpec) (n : Int) : List CharT :=
  signText spec n ++ prefixText spec n ++ digitsText spec.type n.natAbs

/-- Zero padding applies when the specification gives no alignment. -/
def PadsWithZeros (spec : FormatSpec) : Prop := spec.zeroPad ∧ spec.align = .default

instance (spec : FormatSpec) : Decidable (PadsWithZeros spec) := inferInstanceAs (Decidable (_ ∧ _))

/-- The body with `k` characters of padding. -/
def layout (spec : FormatSpec) (k : Nat) (n : Int) : List CharT :=
  if PadsWithZeros spec then
    signText spec n ++ prefixText spec n ++ List.replicate k (lit '0') ++ digitsText spec.type n.natAbs
  else pad spec.align spec.fillChar k (bodyText spec n)

/-- The characters that a format specification asks for. -/
def integerText (spec : FormatSpec) (width : Nat) (n : Int) : List CharT :=
  layout spec (width - (bodyText spec n).length) n

/-- The width of a specification whose arguments have been resolved. -/
def widthOf (spec : FormatSpec) : Nat := if spec.width = .none then 0 else spec.widthVal

end Text

section Buffer

/-- The characters written so far, from the last one on. -/
structure Buffer.Has (b : Buffer) (size : Nat) (text : List CharT) : Prop where
  view_eq : b.view = text
  length_eq : b.arr.length = size
  free_le : b.free ≤ size

def pushAll (text : List CharT) (b : Buffer) : Result Buffer := text.foldlM Buffer.push b

variable {b : Buffer} {size k : Nat} {text : List CharT}

theorem Buffer.new_has (T : IntType) : (Buffer.new T).Has (maxLen T) [] where
  view_eq := by simp [Buffer.view, Buffer.new]
  length_eq := List.length_replicate
  free_le := le_refl (maxLen T)

theorem Buffer.Has.push (h : b.Has size text) (hk : b.free = k + 1) (c : CharT) :
    ∃ b', b.push c = .ok b' ∧ b'.Has size (c :: text) ∧ b'.free = k := by
  refine ⟨⟨b.arr.set k c, k⟩, by rw [Buffer.push, hk], ⟨?_, ?_, ?_⟩, rfl⟩
  · have hview := h.view_eq
    have hlt : k < b.arr.length := by
      have hle := h.free_le
      rw [h.length_eq]
      omega
    rw [Buffer.view, hk] at hview
    rw [Buffer.view, List.drop_eq_getElem_cons (by rw [List.length_set]; exact hlt), List.getElem_set_self,
      List.drop_set_of_lt (Nat.lt_succ_self k), hview]
  · exact (List.length_set ..).trans h.length_eq
  · have hle := h.free_le
    rw [hk] at hle
    exact Nat.le_of_succ_le hle

theorem push_full (hfree : b.free = 0) (c : CharT) : b.push c = .error .undefined := by
  rw [Buffer.push, hfree]

theorem pushAll_cons (c : CharT) (text : List CharT) (b : Buffer) :
    pushAll (c :: text) b = b.push c >>= pushAll text := rfl

theorem pushAll_append (text text' : List CharT) (b : Buffer) :
    pushAll (text ++ text') b = pushAll text b >>= pushAll text' := List.foldlM_append

/-- Characters for which there is room stand in front of what was written before. -/
theorem Buffer.Has.pushAll_room (more : List CharT) : ∀ {b : Buffer} {text : List CharT}, b.Has size text →
    more.length ≤ b.free → ∃ b', pushAll more b = .ok b' ∧ b'.Has size (more.reverse ++ text) := by
  induction more with
  | nil =>
    intro b text h _
    exact ⟨b, rfl, h⟩
  | cons c more ih =>
    intro b text h hroom
    obtain ⟨k, hk⟩ : ∃ k, b.free = k + 1 := Nat.exists_eq_succ_of_ne_zero (by
      rw [List.length_cons] at hroom
      omega)
    obtain ⟨b', hpush, hhas, hfree⟩ := h.push hk c
    obtain ⟨b'', hrest, hhas'⟩ := ih hhas (by
      rw [List.length_cons] at hroom
      omega)
    refine ⟨b'', by rw [pushAll_cons, hpush]; exact hrest, ?_⟩
    rwa [List.reverse_cons, List.append_assoc]

/-- One character too many is written below the array. -/
theorem Buffer.Has.pushAll_full (more : List CharT) : ∀ {b : Buffer} {text : List CharT}, b.Has size text →
    b.free < more.length → pushAll more b = .error .undefined := by
  induction more with
  | nil =>
    intro b text _ hroom
    exact absurd hroom (Nat.not_lt_zero _)
  | cons c more ih =>
    intro b text h hroom
    rw [List.length_cons] at hroom
    rw [pushAll_cons]
    cases hfree : b.free with
    | zero =>
      rw [push_full hfree]
      rfl
    | succ k =>
      obtain ⟨b', hpush, hhas, hfree'⟩ := h.push hfree c
      rw [hpush]
      exact ih hhas (by omega)

end Buffer

section Digits

variable {T : IntType} {spec : FormatSpec} {n : Int}

theorem writeDigits_eq (type : Presentation) (un : Nat) : ∀ b,
    writeDigits type un b = pushAll ((Nat.digits (radix type) un).map (conv type)) b := by
  induction un using Nat.strong_induction_on with
  | _ un ih =>
    intro b
    rw [writeDigits]
    split
    · next hpos =>
      have hlt : un / radix type < un := Nat.div_lt_self hpos (two_le_radix type)
      rw [Nat.digits_def' (two_le_radix type) hpos, List.map_cons, pushAll_cons]
      congr 1
      funext b'
      exact ih _ hlt b'
    · next hzero =>
      obtain rfl : un = 0 := Nat.eq_zero_of_not_pos hzero
      rw [Nat.digits_zero]
      rfl

/-- The digits of the absolute value are written from the last one on. -/
theorem writeMagnitude_eq (type : Presentation) (un : Nat) (b : Buffer) :
    writeMagnitude type un b = pushAll (digitsText type un).reverse b := by
  rw [writeMagnitude]
  by_cases hun : un = 0
  · rw [if_neg (not_not_intro hun), digitsText, if_pos hun]
    change _ = b.push (lit '0') >>= pure
    rw [bind_pure]
  · rw [if_pos hun, writeDigits_eq, digitsText, if_neg hun, List.reverse_reverse]

theorem pushPrefix_eq (spec : FormatSpec) (n : Int) (b : Buffer) :
    pushPrefix (prefixOf spec n) b = pushAll (prefixText spec n).reverse b := by
  have hone : ∀ c, b.push c = pushAll [c] b := by
    intro c
    rw [pushAll_cons]
    exact (bind_pure _).symm
  have htwo : ∀ c c', pushAll [c, c'] b = b.push c >>= fun b => b.push c' := by
    intro c c'
    rw [pushAll_cons]
    congr 1
    funext b'
    rw [pushAll_cons]
    exact bind_pure _
  rcases spec with ⟨altForm, _, _, _, _, _, _, _, _, _, _, type⟩
  cases altForm with
  | false => cases type <;> rfl
  | true =>
    cases type with
    | o =>
      by_cases hn : n = 0
      · simp [prefixOf, prefixText, hn]
        rfl
      · simp only [prefixOf, prefixText, hn, ne_eq, not_false_eq_true, and_self, if_true, if_false,
          List.reverse_singleton]
        exact hone _
    | b | B | x | X => exact (htwo _ _).symm
    | _ => rfl

/-- The sign character, 0 for none. -/
def signChar (spec : FormatSpec) (n : Int) : CharT :=
  if n < 0 then lit '-'
  else match spec.sign with | .always => lit '+' | .leadingSpace => lit ' ' | _ => 0

theorem signText_eq (spec : FormatSpec) (n : Int) :
    signText spec n = if signChar spec n ≠ 0 then [signChar spec n] else [] := by
  by_cases hn : n < 0
  · simp only [signText, signChar, if_pos hn]
    rfl
  · simp only [signText, signChar, if_neg hn]
    cases spec.sign <;> rfl

theorem pushSign_eq (spec : FormatSpec) (n : Int) (b : Buffer) :
    pushSign (signChar spec n) b = pushAll (signText spec n).reverse b := by
  rw [pushSign, signText_eq]
  split
  · exact (bind_pure _).symm
  · rfl

theorem signOf_eq (hn : T.Holds n) (hover : ¬ NegationOverflows T n) :
    signOf T spec n = .ok (signChar spec n, n.natAbs) := by
  by_cases hneg : n < 0
  · simp only [signOf, if_pos hneg, negate_of_not_overflow hn hneg hover, signChar]
    rw [cast_negated hn hneg, Int.toNat_natCast]
  · have hunsigned : T.makeUnsigned.Holds n := by
      have hpow := T.two_pow_width
      obtain ⟨-, hmax⟩ := hn
      have hhigh : T.makeUnsigned.max = 2 ^ T.width - 1 := rfl
      rw [IntType.max] at hmax
      refine ⟨not_lt.mp hneg, ?_⟩
      rw [hhigh]
      split at hmax <;> omega
    simp only [signOf, if_neg hneg, signChar]
    rw [IntType.cast_of_holds hunsigned]
    congr 2
    omega

theorem signOf_overflow (hover : NegationOverflows T n) (hneg : n < 0) : signOf T spec n = .error .undefined := by
  simp only [signOf, if_pos hneg, negate_of_overflow hover]

end Digits

section Width

variable {I D : Type} {o : OutputIterator I D} {T : IntType} {spec : FormatSpec} {n : Int} {out : I × D}

/-- The fill that the code counts when the width is `k` characters more than the text. -/
def countedFill (k : Nat) : Nat := (ptrdiffT.cast k).toNat

theorem countedFill_of_lt {k : Nat} (hk : k < 2 ^ 63) : countedFill k = k := by
  have hmax : ptrdiffT.max = 2 ^ 63 - 1 := rfl
  have hmin : ptrdiffT.min = -2 ^ 63 := rfl
  have hholds : ptrdiffT.Holds k := by
    constructor
    · rw [hmin]
      omega
    · rw [hmax]
      omega
  rw [countedFill, IntType.cast_of_holds hholds, Int.toNat_natCast]

theorem countedFill_of_le {k : Nat} (hk : 2 ^ 63 ≤ k) : countedFill k < k := by
  have hlt := Int.bmod_lt (x := k) (Nat.two_pow_pos 64)
  norm_num at hlt
  simp only [countedFill, IntType.cast, ptrdiffT, if_true]
  norm_num
  omega

theorem countedFill_zero : countedFill 0 = 0 := countedFill_of_lt (by norm_num)

theorem fillSize_toNat (spec : FormatSpec) (len : Nat) :
    (fillSize spec len).toNat = countedFill (widthOf spec - len) := by
  rw [fillSize, widthOf]
  by_cases hwidth : spec.width = .none
  · rw [if_neg (fun h => h.1 hwidth), if_pos hwidth, Nat.zero_sub, countedFill_zero, Int.toNat_zero]
  · rw [if_neg hwidth]
    by_cases hlt : len < spec.widthVal
    · rw [if_pos ⟨hwidth, hlt⟩, countedFill, Int.ofNat_sub hlt.le]
    · rw [if_neg (fun h => hlt h.2), Nat.sub_eq_zero_of_le (not_lt.mp hlt), countedFill_zero, Int.toNat_zero]

theorem length_pad (align : Align) (fill : CharT) (k : Nat) (text : List CharT) :
    (pad align fill k text).length = k + text.length := by
  cases align <;> simp only [pad, List.length_append, List.length_replicate] <;> omega

/-- A fill that is not positive is none, also when it is split. -/
theorem half_toNat (fill : Int) :
    (fill.tdiv 2).toNat = fill.toNat / 2 ∧ (fill - fill.tdiv 2).toNat = fill.toNat - fill.toNat / 2 := by
  rcases le_total 0 fill with hpos | hneg
  · rw [Int.tdiv_eq_ediv_of_nonneg hpos]
    omega
  · obtain ⟨m, rfl⟩ : ∃ m, fill = -m := ⟨-fill, (neg_neg fill).symm⟩
    rw [Int.neg_tdiv, Int.tdiv_eq_ediv_of_nonneg (by omega)]
    omega

theorem doOutput_eq (halign : spec.align ≠ .default) (text : List CharT) :
    doOutput o spec out text =
      o.copy (pad spec.align spec.fillChar (countedFill (widthOf spec - text.length)) text) out := by
  have hcount := fillSize_toNat spec text.length
  simp only [doOutput, o.fillN_eq, ← o.copy_append]
  cases h : spec.align with
  | default => exact absurd h halign
  | begin => simp only [splitFill, pad, hcount, Int.toNat_zero, List.replicate_zero, List.nil_append]
  | «end» => simp only [splitFill, pad, hcount, Int.toNat_zero, List.replicate_zero, List.append_nil]
  | middle =>
    obtain ⟨hpre, hpost⟩ := half_toNat (fillSize spec text.length)
    simp only [splitFill, pad, hpre, hpost, hcount]

end Width

section Fits

variable {T : IntType} {spec : FormatSpec} {n : Int}

/-- The number needs one character more than the array has. -/
def Overruns (T : IntType) (spec : FormatSpec) (n : Int) : Prop :=
  T.signed ∧ n = T.min ∧ radix spec.type = 2 ∧ spec.altForm ∧ ¬ PadsWithZeros spec

theorem length_digitsText (type : Presentation) {m k : Nat} (hk : 0 < k) :
    (digitsText type m).length ≤ k ↔ m < radix type ^ k := by
  rw [digitsText]
  split
  · next hm =>
    rw [hm, List.length_singleton]
    exact iff_of_true hk (Nat.pow_pos (Nat.lt_of_lt_of_le (by decide) (two_le_radix type)))
  · rw [List.length_reverse, List.length_map, Nat.digits_length_le_iff (two_le_radix type)]

theorem digitsText_pos (type : Presentation) (m : Nat) : 0 < (digitsText type m).length := by
  rw [digitsText]
  split
  · exact Nat.one_pos
  · next hm =>
    rw [List.length_reverse, List.length_map, List.length_pos_iff]
    exact Nat.digits_ne_nil_iff_ne_zero.mpr hm

theorem length_signText_le (spec : FormatSpec) (n : Int) : (signText spec n).length ≤ 1 := by
  rw [signText_eq]
  split
  · exact le_refl 1
  · exact Nat.zero_le 1

theorem length_prefixText_le (spec : FormatSpec) (n : Int) : (prefixText spec n).length ≤ 2 := by
  rw [prefixText]
  split <;> try split
  all_goals simp

theorem natAbs_min (hs : T.signed) (hn : n = T.min) : n.natAbs = 2 ^ (T.width - 1) := by
  have hmin : T.min = -2 ^ (T.width - 1) := if_pos hs
  rw [hn, hmin, Int.natAbs_neg]
  norm_cast

theorem two_lt_radix {type : Presentation} (h : radix type ≠ 2) : 2 < radix type :=
  lt_of_le_of_ne (two_le_radix type) (Ne.symm h)

/-- All numbers but the least one of a signed type have a digit for each bit that is not the sign. -/
theorem length_digitsText_le (hn : T.Holds n) (type : Presentation)
    (hleast : T.signed → n = T.min → radix type ≠ 2) :
    (digitsText type n.natAbs).length ≤ numericDigits T := by
  have height := T.eight_le
  obtain ⟨hmin, hmax⟩ := hn
  by_cases hs : T.signed
  · have hdigits : numericDigits T = T.width - 1 := if_pos hs
    rw [hdigits, length_digitsText type (by omega)]
    by_cases heq : n = T.min
    · rw [natAbs_min hs heq]
      exact Nat.pow_lt_pow_left (two_lt_radix (hleast hs heq)) (by omega)
    · have hmin' : T.min = -2 ^ (T.width - 1) := if_pos hs
      have hmax' : T.max = 2 ^ (T.width - 1) - 1 := if_pos hs
      have hlt : (n.natAbs : Int) < 2 ^ (T.width - 1) := by omega
      calc n.natAbs < 2 ^ (T.width - 1) := by exact_mod_cast hlt
        _ ≤ radix type ^ (T.width - 1) := Nat.pow_le_pow_left (two_le_radix type) _
  · have hdigits : numericDigits T = T.width := if_neg hs
    rw [hdigits, length_digitsText type (by omega)]
    have hmin' : T.min = 0 := if_neg hs
    have hmax' : T.max = 2 ^ T.width - 1 := if_neg hs
    have hlt : (n.natAbs : Int) < 2 ^ T.width := by omega
    calc n.natAbs < 2 ^ T.width := by exact_mod_cast hlt
      _ ≤ radix type ^ T.width := Nat.pow_le_pow_left (two_le_radix type) _

theorem length_digitsText_min (hs : T.signed) (hn : n = T.min) {type : Presentation} (htwo : radix type = 2) :
    (digitsText type n.natAbs).length = T.width := by
  have height := T.eight_le
  apply le_antisymm
  · rw [length_digitsText type (by omega), natAbs_min hs hn, htwo]
    exact Nat.pow_lt_pow_right (by decide) (by omega)
  · by_contra hlt
    have hle : (digitsText type n.natAbs).length ≤ T.width - 1 := by omega
    rw [length_digitsText type (by omega), natAbs_min hs hn, htwo] at hle
    exact lt_irrefl _ hle

/-- What is put into the array: zero padding puts the sign and the prefix out before. -/
def written (spec : FormatSpec) (n : Int) : List CharT :=
  if PadsWithZeros spec then digitsText spec.type n.natAbs else bodyText spec n

theorem length_bodyText (spec : FormatSpec) (n : Int) : (bodyText spec n).length =
    (signText spec n).length + (prefixText spec n).length + (digitsText spec.type n.natAbs).length := by
  rw [bodyText, List.length_append, List.length_append]

theorem prefixText_binary (htwo : radix spec.type = 2) :
    (prefixText spec n).length = if spec.altForm then 2 else 0 := by
  rcases spec with ⟨altForm, _, _, _, _, _, _, _, _, _, _, type⟩
  cases altForm with
  | false => cases type <;> rfl
  | true =>
    cases type with
    | b | B => rfl
    | _ => simp [radix] at htwo

theorem signText_of_neg (hn : n < 0) : (signText spec n).length = 1 := by
  rw [signText, if_pos hn]
  rfl

/-- The least number in base 2 with its prefix is the only one that does not fit. -/
theorem written_fits_iff (hn : T.Holds n) : (written spec n).length ≤ maxLen T ↔ ¬ Overruns T spec n := by
  have hsign := length_signText_le spec n
  have hpre := length_prefixText_le spec n
  have hbody := length_bodyText spec n
  have height := T.eight_le
  by_cases hleast : T.signed ∧ n = T.min ∧ radix spec.type = 2
  · obtain ⟨hs, hmin, htwo⟩ := hleast
    have hdigits := length_digitsText_min hs hmin htwo
    have hprefix := prefixText_binary (n := n) htwo
    have hneg : n < 0 := by
      have hlow : T.min = -2 ^ (T.width - 1) := if_pos hs
      have hpow := T.le_two_pow_width
      omega
    have hone : (signText spec n).length = 1 := signText_of_neg hneg
    have hmax : maxLen T = T.width + 2 := by
      rw [maxLen, numericDigits, if_pos hs]
      omega
    rw [written, hmax]
    by_cases hzeros : PadsWithZeros spec
    · rw [if_pos hzeros]
      exact iff_of_true (by omega) fun h => h.2.2.2.2 hzeros
    · rw [if_neg hzeros]
      by_cases halt : spec.altForm
      · rw [if_pos halt] at hprefix
        exact iff_of_false (by omega) (not_not_intro ⟨hs, hmin, htwo, halt, hzeros⟩)
      · rw [if_neg halt] at hprefix
        exact iff_of_true (by omega) fun h => halt h.2.2.2.1
  · have hdigits := length_digitsText_le hn spec.type fun hs hmin htwo => hleast ⟨hs, hmin, htwo⟩
    refine iff_of_true ?_ fun h => hleast ⟨h.1, h.2.1, h.2.2.1⟩
    rw [written, maxLen]
    split <;> omega

end Fits

section FormatInteger

variable {I D : Type} {o : OutputIterator I D} {T : IntType} {spec spec' : FormatSpec} {n : Int} {out : I × D}

/-- A specification with its defaults resolved for an integral presentation. -/
structure Prepared (spec spec' : FormatSpec) : Prop where
  altForm_eq : spec'.altForm = spec.altForm
  zeroPad_eq : spec'.zeroPad = spec.zeroPad
  implicitAlignment_eq : spec'.implicitAlignment = decide (spec.align = .default)
  align_eq : spec'.align = if spec.align = .default then .end else spec.align
  sign_eq : spec'.sign = spec.sign
  fillChar_eq : spec'.fillChar = spec.fillChar
  type_eq : spec'.type = spec.type

theorem Prepared.align_ne (h : Prepared spec spec') : spec'.align ≠ .default := by
  rw [h.align_eq]
  split
  · decide
  · assumption

theorem Prepared.signText_eq (h : Prepared spec spec') (n : Int) : signText spec' n = signText spec n := by
  rw [signText, signText, h.sign_eq]

theorem Prepared.prefixText_eq (h : Prepared spec spec') (n : Int) : prefixText spec' n = prefixText spec n := by
  rw [prefixText, prefixText, h.altForm_eq, h.type_eq]

theorem Prepared.padsWithZeros_iff (h : Prepared spec spec') :
    (spec'.zeroPad ∧ spec'.implicitAlignment) ↔ PadsWithZeros spec := by
  rw [PadsWithZeros, h.zeroPad_eq, h.implicitAlignment_eq, decide_eq_true_iff]

/-- Resolving runtime values changes nothing but the width and the precision. -/
theorem resolveWp_eq {args : List Arg} (h : resolveWp args spec = .ok spec') :
    ∃ width widthVal precision precisionVal, spec' = { spec with width, widthVal, precision, precisionVal } := by
  obtain ⟨spec₁, hspec₁, hrest⟩ := bind_eq_ok.mp h
  have hwidth : ∃ width widthVal, spec₁ = { spec with width, widthVal } := by
    rw [resolveWidth] at hspec₁
    split at hspec₁
    · obtain ⟨width, -, hok⟩ := bind_eq_ok.mp hspec₁
      exact ⟨_, _, (Except.ok.inj hok).symm⟩
    · exact ⟨_, _, (Except.ok.inj hspec₁).symm⟩
  obtain ⟨width, widthVal, rfl⟩ := hwidth
  rw [resolvePrecision] at hrest
  split at hrest
  · obtain ⟨precision, -, hok⟩ := bind_eq_ok.mp hrest
    exact ⟨_, _, _, _, (Except.ok.inj hok).symm⟩
  · exact ⟨_, _, _, _, (Except.ok.inj hrest).symm⟩

theorem prepare_integral {K : ArgType} {args : List Arg} (hint : isIntegralPresentation spec)
    (hfresh : spec.implicitAlignment = false) (h : prepare K args spec = .ok spec') : Prepared spec spec' := by
  have htype : spec.type ≠ .default := by
    intro hdefault
    rw [isIntegralPresentation, hdefault] at hint
    cases hint
  have hpresentation : resolvePresentation K spec = spec := if_pos htype
  have harithmetic : treatAsArithmetic K spec = true := if_pos hint
  obtain ⟨spec₁, hwp, hcheck⟩ := bind_eq_ok.mp h
  obtain ⟨_, -, hok⟩ := bind_eq_ok.mp hcheck
  obtain rfl := Except.ok.inj hok
  rw [hpresentation] at hwp
  obtain ⟨width, widthVal, precision, precisionVal, rfl⟩ := resolveWp_eq hwp
  rw [resolveAlignment, harithmetic]
  by_cases halign : spec.align = .default
  · rw [if_neg (not_not_intro halign)]
    exact ⟨rfl, rfl, (decide_eq_true halign).symm, (if_pos halign).symm, rfl, rfl, rfl⟩
  · rw [if_pos halign]
    exact ⟨rfl, rfl, hfresh.trans (decide_eq_false halign).symm, (if_neg halign).symm, rfl, rfl, rfl⟩

theorem putSign_eq (spec : FormatSpec) (n : Int) (out : I × D) :
    putSign o (signChar spec n) out = (o.copy (signText spec n) out, (signText spec n).length) := by
  rw [putSign, signText_eq]
  split
  · rfl
  · rfl

theorem putPrefix_eq (spec : FormatSpec) (n : Int) (out : (I × D) × Nat) :
    putPrefix o (prefixOf spec n) out =
      (o.copy (prefixText spec n) out.1, out.2 + (prefixText spec n).length) := by
  rcases spec with ⟨altForm, _, _, _, _, _, _, _, _, _, _, type⟩
  cases altForm with
  | false => cases type <;> rfl
  | true =>
    cases type with
    | o =>
      by_cases hn : n = 0
      · simp [putPrefix, prefixOf, prefixText, hn, OutputIterator.copy]
      · simp [putPrefix, prefixOf, prefixText, hn, OutputIterator.copy]
    | _ => rfl

theorem formatInteger_overflow (hneg : n < 0) (hover : NegationOverflows T n) :
    formatInteger o T spec out n = .error .undefined := by
  rw [formatInteger, signOf_overflow hover hneg]
  rfl

theorem formatInteger_zeros (hprepared : Prepared spec spec') (hn : T.Holds n) (hover : ¬ NegationOverflows T n)
    (hzeros : PadsWithZeros spec) :
    formatInteger o T spec' out n =
      .ok (o.copy (layout spec (countedFill (widthOf spec' - (bodyText spec n).length)) n) out) := by
  obtain ⟨b, hpush, hhas⟩ := (Buffer.new_has T).pushAll_room (digitsText spec.type n.natAbs).reverse (by
    have hfits := (written_fits_iff hn).mpr fun h : Overruns T spec n => h.2.2.2.2 hzeros
    rw [written, if_pos hzeros] at hfits
    rw [List.length_reverse]
    exact hfits)
  have hview : b.view = digitsText spec.type n.natAbs := by
    rw [hhas.view_eq, List.reverse_reverse, List.append_nil]
  have hdigits := digitsText_pos spec.type n.natAbs
  have halign : spec'.align = .end := by rw [hprepared.align_eq, if_pos hzeros.2]
  rw [formatInteger, signOf_eq hn hover, ok_bind]
  simp only [writeMagnitude_eq, hprepared.type_eq, hpush, ok_bind, if_pos (hprepared.padsWithZeros_iff.mpr hzeros),
    putSign_eq, putPrefix_eq, hprepared.signText_eq, hprepared.prefixText_eq]
  have hrest : ∀ len,
      (if spec'.widthVal > len then spec'.widthVal - len else 1) - (digitsText spec.type n.natAbs).length =
        spec'.widthVal - (len + (digitsText spec.type n.natAbs).length) := by
    intro len
    split <;> omega
  rw [doOutput_eq (by rw [halign]; decide), hview, ← o.copy_append, ← o.copy_append, layout, if_pos hzeros, halign,
    length_bodyText]
  simp only [pad, widthOf]
  by_cases hwidth : spec'.width = .none
  · simp only [if_pos hwidth, Nat.zero_sub, List.append_assoc]
    rfl
  · simp only [if_neg hwidth, hrest, List.append_assoc]
    rfl

theorem formatInteger_plain (hprepared : Prepared spec spec') (hn : T.Holds n) (hover : ¬ NegationOverflows T n)
    (hzeros : ¬ PadsWithZeros spec) :
    formatInteger o T spec' out n =
      (pushAll (bodyText spec n).reverse (Buffer.new T) >>= fun b => .ok (doOutput o spec' out b.view)) := by
  have hreverse : (bodyText spec n).reverse =
      (digitsText spec.type n.natAbs).reverse ++ ((prefixText spec n).reverse ++ (signText spec n).reverse) := by
    rw [bodyText, List.reverse_append, List.reverse_append]
  rw [formatInteger, signOf_eq hn hover, ok_bind]
  simp only [writeMagnitude_eq, hprepared.type_eq, if_neg (fun h => hzeros (hprepared.padsWithZeros_iff.mp h)),
    pushPrefix_eq, pushSign_eq, hprepared.signText_eq, hprepared.prefixText_eq, hreverse, pushAll_append, bind_assoc]
  rfl

/-- The last character is written below the array. -/
theorem formatInteger_overruns (hprepared : Prepared spec spec') (hn : T.Holds n) (hover : ¬ NegationOverflows T n)
    (hoverruns : Overruns T spec n) : formatInteger o T spec' out n = .error .undefined := by
  have hzeros : ¬ PadsWithZeros spec := hoverruns.2.2.2.2
  have hlong : maxLen T < (written spec n).length :=
    not_le.mp fun hle => (written_fits_iff hn).mp hle hoverruns
  rw [written, if_neg hzeros, ← List.length_reverse] at hlong
  rw [formatInteger_plain hprepared hn hover hzeros, (Buffer.new_has T).pushAll_full _ hlong]
  rfl

theorem formatInteger_eq (hprepared : Prepared spec spec') (hn : T.Holds n) (hover : ¬ NegationOverflows T n)
    (hfits : ¬ Overruns T spec n) :
    formatInteger o T spec' out n =
      .ok (o.copy (layout spec (countedFill (widthOf spec' - (bodyText spec n).length)) n) out) := by
  by_cases hzeros : PadsWithZeros spec
  · exact formatInteger_zeros hprepared hn hover hzeros
  · have hroom := (written_fits_iff hn).mpr hfits
    rw [written, if_neg hzeros, ← List.length_reverse] at hroom
    obtain ⟨b, hpush, hhas⟩ := (Buffer.new_has T).pushAll_room _ hroom
    have hview : b.view = bodyText spec n := by rw [hhas.view_eq, List.reverse_reverse, List.append_nil]
    have hpad : ∀ k, pad spec'.align spec'.fillChar k (bodyText spec n) = layout spec k n := by
      intro k
      rw [layout, if_neg hzeros, hprepared.fillChar_eq, hprepared.align_eq]
      split
      · next halign =>
        rw [halign]
        rfl
      · rfl
    rw [formatInteger_plain hprepared hn hover hzeros, hpush, ok_bind, hview, doOutput_eq hprepared.align_ne, hpad]

theorem length_layout (spec : FormatSpec) (k : Nat) (n : Int) :
    (layout spec k n).length = k + (bodyText spec n).length := by
  rw [layout]
  split
  · simp only [List.length_append, List.length_replicate, length_bodyText]
    omega
  · exact length_pad _ _ _ _

/-- Integer formatting is right for every output iterator exactly when the absolute value can be negated, the text
fits into the array, and the fill is one that the difference type can count. -/
theorem formatInteger_right_iff (K : ArgType) (args : List Arg) (spec spec' : FormatSpec) (T : IntType) (n : T.Value)
    (hint : isIntegralPresentation spec) (hfresh : spec.implicitAlignment = false)
    (hprepare : prepare K args spec = .ok spec') :
    (∀ (I D : Type) (o : OutputIterator I D) (out : I × D),
      formatInteger o T spec' out n = .ok (o.copy (integerText spec (widthOf spec') n) out)) ↔
        ¬ NegationOverflows T n ∧ ¬ Overruns T spec n ∧ widthOf spec' < 2 ^ 63 + (bodyText spec n).length := by
  have hprepared := prepare_integral hint hfresh hprepare
  constructor
  · intro h
    have hback := h Unit (List CharT) backInserter ((), [])
    have hover : ¬ NegationOverflows T n := by
      intro hover
      have hneg : n.1 < 0 := by
        have hlow : T.min = -2 ^ (T.width - 1) := if_pos hover.1
        have hpow := T.le_two_pow_width
        rw [hover.2.2, hlow]
        omega
      rw [formatInteger_overflow hneg hover] at hback
      cases hback
    have hfits : ¬ Overruns T spec n := by
      intro hoverruns
      rw [formatInteger_overruns hprepared n.2 hover hoverruns] at hback
      cases hback
    refine ⟨hover, hfits, ?_⟩
    rw [formatInteger_eq hprepared n.2 hover hfits, copy_backInserter, copy_backInserter, integerText] at hback
    have hlength := congrArg (fun p => p.2.length) (Except.ok.inj hback)
    simp only [List.nil_append, length_layout] at hlength
    by_contra hwide
    have hless := @countedFill_of_le (widthOf spec' - (bodyText spec n).length) (by omega)
    omega
  · rintro ⟨hover, hfits, hwidth⟩ I D o out
    rw [formatInteger_eq hprepared n.2 hover hfits, countedFill_of_lt (by omega)]
    rfl

/-- `{:#06x}` -/
def hexSpec : FormatSpec := { altForm := true, zeroPad := true, width := .fixed, widthVal := 6, type := .x }

example : integerText hexSpec 6 255 = "0x00ff".toList.map lit := by
  simp [integerText, layout, PadsWithZeros, signText, prefixText, bodyText, digitsText, hexSpec, radix, conv]

theorem formatInteger_right_255 :
    (∀ (I D : Type) (o : OutputIterator I D) (out : I × D),
      formatInteger o IntType.int { hexSpec with implicitAlignment := true, align := .end } out 255 =
        .ok (o.copy (integerText hexSpec 6 255) out)) ↔
      ¬ NegationOverflows IntType.int 255 ∧ ¬ Overruns IntType.int hexSpec 255 ∧
        6 < 2 ^ 63 + (bodyText hexSpec 255).length :=
  formatInteger_right_iff .integer [] hexSpec { hexSpec with implicitAlignment := true, align := .end } IntType.int
    ⟨255, by decide⟩ rfl rfl rfl

/-- `{:#b}` for the least `signed char` and `{:d}` for the least `int` -/
theorem formatInteger_least :
    (∃ spec', prepare .integer [] { altForm := true, type := .b } = .ok spec' ∧
      formatInteger backInserter ⟨true, 8, le_refl 8⟩ spec' ((), []) (-128) = .error .undefined) ∧
    ∃ spec', prepare .integer [] { type := .d } = .ok spec' ∧
      formatInteger backInserter IntType.int spec' ((), []) (-2147483648) = .error .undefined := by
  refine ⟨⟨_, rfl, ?_⟩, ⟨_, rfl, ?_⟩⟩
  · have hprepared := @prepare_integral { altForm := true, type := .b } _ .integer [] rfl rfl rfl
    apply formatInteger_overruns hprepared (by decide)
    · rintro ⟨-, hwide, -⟩
      exact absurd hwide (by decide)
    · exact ⟨rfl, rfl, rfl, rfl, by decide⟩
  · exact formatInteger_overflow (by decide) ⟨rfl, le_refl 32, rfl⟩

end FormatInteger

end XviOs.Format
