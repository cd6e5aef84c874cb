import XviOs.StdLib.CType

namespace XviOs.StdLib

/-- A pointer into a string is what is left of the string from there on, without the NUL. -/
abbrev Pointer := List ℤ

def deref (str : Pointer) : ℤ := str.headD 0

def code (c : Char) : ℤ := c.toNat

def EDOM : ℕ := 180

def ERANGE : ℕ := 720

/-- The type of the result. -/
structure Numeric where
  signed : Bool
  bits : ℕ

namespace Numeric

def max (t : Numeric) : ℤ := if t.signed then 2 ^ (t.bits - 1) - 1 else 2 ^ t.bits - 1

def min (t : Numeric) : ℤ := if t.signed then -2 ^ (t.bits - 1) else 0

theorem max_nonneg (t : Numeric) : 0 ≤ t.max := by
  rw [max]
  split <;> exact sub_nonneg.mpr (one_le_pow₀ one_le_two)

theorem min_nonpos (t : Numeric) : t.min ≤ 0 := by
  rw [min]
  split
  · exact Int.neg_nonpos_of_nonneg (by positivity)
  · exact le_refl 0

end Numeric

/-- What a call returns, what it stores at `end` where that is not null, and what it sets `errno` to, if it does. -/
structure Outcome where
  value : ℤ
  stored : Option Pointer
  errno : Option ℕ
  deriving DecidableEq

/-- With the base that the function was called with. -/
def valueOf (base : ℤ) (c : ℤ) : ℤ :=
  if isdigit c then c - code '0'
  else if isupper c then c - code 'A' + 10
  else if islower c then c - code 'a' + 10
  else base

def skipSpace (isSpace : ℤ → Bool) : Pointer → Pointer
  | [] => []
  | c :: str => if isSpace c then skipSpace isSpace str else c :: str

def isSign (c : ℤ) : Bool := c = code '+' ∨ c = code '-'

def readSign (str : Pointer) : Bool × Pointer :=
  if isSign (deref str) then (deref str = code '-', str.tail) else (false, str)

/-- The test for `0x` and `0X`. -/
def hasHexPrefix (str : Pointer) : Bool :=
  deref str = code '0' ∧ (deref str.tail = code 'x' ∨ deref str.tail = code 'X')

def skipHexPrefix (base : ℤ) (str : Pointer) : Pointer := if base = 16 ∧ hasHexPrefix str then str.drop 2 else str

def detectBase (base : ℤ) (str : Pointer) : ℤ × Pointer :=
  if base = 0 then
    if deref str = code '0' then
      if deref str.tail = code 'x' ∨ deref str.tail = code 'X' then (16, str.drop 2) else (8, str.tail)
    else (10, str)
  else (base, str)

structure Conversion where
  str : Pointer
  val : ℤ
  overflow : Bool
  valid : Bool

/-- One turn of the loop, if it does not end there. Nothing moves `str`. -/
def convertStep (t : Numeric) (called base : ℤ) (s : Conversion) : Option Conversion :=
  if s.str = [] then none else
    let digit := valueOf called (deref s.str)
    if digit ≥ base then none else
      let overflow : Bool := s.overflow || t.max / base < s.val
      let val := if overflow then s.val else s.val * base
      let overflow : Bool := overflow || t.max - digit < val
      some ⟨s.str, if overflow then val else val + digit, overflow, true⟩

/-- The loop, when it ends within so many turns. -/
def convertLoop (t : Numeric) (called base : ℤ) : ℕ → Conversion → Option Conversion
  | 0, _ => none
  | n + 1, s =>
    match convertStep t called base s with
    | none => some s
    | some s' => convertLoop t called base n s'

/-- What is done when the loop has ended. -/
def finish (t : Numeric) (begin : Pointer) (negative toEnd : Bool) (s : Conversion) : Outcome :=
  let store (p : Pointer) : Option Pointer := if toEnd then some p else none
  if !s.valid then ⟨0, store begin, none⟩
  else if s.overflow then
    ⟨if t.signed then (if negative then t.min else t.max) else t.max, store s.str, some ERANGE⟩
  else if t.signed then ⟨if negative then -s.val else s.val, store s.str, none⟩
  else if negative ∧ s.val ≠ 0 then ⟨t.max, store s.str, some ERANGE⟩
  else ⟨s.val, store s.str, none⟩

/-- Where the digits are looked for, when a base is given. -/
def digitsStart (isSpace : ℤ → Bool) (base : ℤ) (str : Pointer) : Pointer :=
  skipHexPrefix base (readSign (skipSpace isSpace str)).2

def strToNum (t : Numeric) (isSpace : ℤ → Bool) (str : Pointer) (toEnd : Bool) (base : ℤ) (fuel : ℕ) :
    Option Outcome :=
  if base < 2 ∨ base > 36 then some ⟨0, if toEnd then some str else none, some EDOM⟩ else do
    let negative := (readSign (skipSpace isSpace str)).1
    let (base', start) := detectBase base (digitsStart isSpace base str)
    let s ← convertLoop t base base' fuel ⟨start, 0, false, false⟩
    return finish t str negative toEnd s

/-- The value of a digit or a letter. -/
def digitValue (c : ℤ) : Option ℕ :=
  if code '0' ≤ c ∧ c ≤ code '9' then some (c - code '0').toNat
  else if code 'a' ≤ c ∧ c ≤ code 'z' then some ((c - code 'a').toNat + 10)
  else if code 'A' ≤ c ∧ c ≤ code 'Z' then some ((c - code 'A').toNat + 10)
  else none

def isDigitOf (base c : ℤ) : Bool := (digitValue c).any fun v : ℕ => (v : ℤ) < base

/-- A digit of the base comes first. -/
def startsWithDigit (base : ℤ) (str : Pointer) : Bool := str.head?.any (isDigitOf base)

/-- The base of the numeral behind the sign, and the pointer to its digits, as the C standard has them: `0x` belongs to
the numeral only when a digit follows. -/
def numeral (base : ℤ) (str : Pointer) : ℤ × Pointer :=
  if (base = 0 ∨ base = 16) ∧ hasHexPrefix str ∧ startsWithDigit 16 (str.drop 2) then (16, str.drop 2)
  else if base = 0 then (if deref str = code '0' then 8 else 10, str)
  else (base, str)

/-- The number that the digits stand for. -/
def valueOfDigits (base : ℤ) (digits : List ℤ) : ℤ := digits.foldl (fun v c => v * base + ((digitValue c).getD 0 : ℕ)) 0

/-- The value in the type, and whether it was out of range. -/
def inRange (t : Numeric) (negative : Bool) (v : ℤ) : ℤ × Option ℕ :=
  if t.signed then
    let x := if negative then -v else v
    if x > t.max then (t.max, some ERANGE) else if x < t.min then (t.min, some ERANGE) else (x, none)
  else if v > t.max then (t.max, some ERANGE)
  else (if negative then -v % 2 ^ t.bits else v, none)

/-- What the C standard defines. -/
def conversion (t : Numeric) (isSpace : ℤ → Bool) (str : Pointer) (toEnd : Bool) (base : ℤ) : Outcome :=
  let store (p : Pointer) : Option Pointer := if toEnd then some p else none
  let (negative, rest) := readSign (str.dropWhile isSpace)
  let (base', start) := numeral base rest
  let digits := start.takeWhile (isDigitOf base')
  if digits = [] then ⟨0, store str, none⟩ else
    let (x, errno) := inRange t negative (valueOfDigits base' digits)
    ⟨x, store (start.drop digits.length), errno⟩

variable {t : Numeric} {isSpace : ℤ → Bool} {str : Pointer} {toEnd : Bool} {base c : ℤ}

theorem skipSpace_eq (isSpace : ℤ → Bool) (str : Pointer) : skipSpace isSpace str = str.dropWhile isSpace := by
  induction str with
  | nil => rfl
  | cons c str ih => rw [skipSpace, List.dropWhile_cons, ih]

/-- The characters that the loop takes are the digits of the base. -/
theorem valueOf_lt_iff : valueOf base c < base ↔ isDigitOf base c = true := by
  have hzero : code '0' = 48 ∧ code '9' = 57 := ⟨rfl, rfl⟩
  have hlower : code 'a' = 97 ∧ code 'z' = 122 := ⟨rfl, rfl⟩
  have hupper : code 'A' = 65 ∧ code 'Z' = 90 := ⟨rfl, rfl⟩
  simp only [valueOf, isDigitOf, digitValue, isdigit_iff, isupper_iff, islower_iff, hzero, hlower, hupper]
  split_ifs <;> simp <;> omega

theorem convertStep_of_digit {s : Conversion} (hs : startsWithDigit base s.str = true) :
    ∃ s', convertStep t base base s = some s' ∧ s'.str = s.str := by
  obtain ⟨c, str, hstr⟩ : ∃ c str, s.str = c :: str := by
    cases h : s.str with
    | nil => simp [h, startsWithDigit] at hs
    | cons c str => exact ⟨c, str, rfl⟩
  have hc : valueOf base (deref s.str) < base := by
    apply valueOf_lt_iff.mpr
    rw [hstr, startsWithDigit] at hs
    rw [hstr]
    exact hs
  rw [convertStep, if_neg (by simp [hstr]), if_neg (not_le.mpr hc)]
  exact ⟨_, rfl, rfl⟩

/-- The loop does not end when there is a digit. -/
theorem convertLoop_of_digit (n : ℕ) {s : Conversion} (hs : startsWithDigit base s.str = true) :
    convertLoop t base base n s = none := by
  induction n generalizing s with
  | zero => rfl
  | succ n ih =>
    obtain ⟨s', hstep, hstr⟩ := convertStep_of_digit (t := t) hs
    rw [convertLoop, hstep]
    exact ih (by rwa [hstr])

theorem convertLoop_of_no_digit (n : ℕ) {s : Conversion} (hs : startsWithDigit base s.str = false) :
    convertLoop t base base (n + 1) s = some s := by
  have hstep : convertStep t base base s = none := by
    rw [convertStep]
    cases hstr : s.str with
    | nil => rfl
    | cons c str =>
      have hc : ¬valueOf base c < base := by
        rw [valueOf_lt_iff]
        simpa [hstr, startsWithDigit] using hs
      rw [if_neg (List.cons_ne_nil c str)]
      exact if_pos (not_lt.mp hc)
  rw [convertLoop, hstep]

theorem takeWhile_eq_nil_iff : str.takeWhile (isDigitOf base) = [] ↔ startsWithDigit base str = false := by
  cases str with
  | nil => simp [startsWithDigit]
  | cons c str =>
    rw [List.takeWhile_cons, startsWithDigit, List.head?_cons, Option.any_some]
    cases isDigitOf base c <;> simp

theorem length_readSign_le (str : Pointer) : (readSign str).2.length ≤ str.length := by
  rw [readSign]
  split_ifs
  · exact (List.length_tail).trans_le (Nat.sub_le _ _)
  · exact le_refl _

theorem hasHexPrefix_cases (h : hasHexPrefix str = true) :
    ∃ x rest, str = code '0' :: x :: rest ∧ (x = code 'x' ∨ x = code 'X') := by
  rw [hasHexPrefix, decide_eq_true_iff] at h
  obtain ⟨hzero, hx⟩ := h
  match str, hzero, hx with
  | [_], rfl, hx => exact absurd hx (show ¬((0 : ℤ) = code 'x' ∨ (0 : ℤ) = code 'X') by decide)
  | c :: x :: rest, rfl, hx => exact ⟨x, rest, rfl, hx⟩

/-- Without a digit behind it, `0x` is the numeral `0`. -/
theorem conversion_hexPrefix {rest : Pointer} (hrest : (readSign (str.dropWhile isSpace)).2 = rest)
    (hhex : hasHexPrefix rest = true) (hdigit : startsWithDigit 16 (rest.drop 2) = false) :
    conversion t isSpace str toEnd 16 = ⟨0, if toEnd then some rest.tail else none, none⟩ := by
  obtain ⟨x, rest', rfl, hx⟩ := hasHexPrefix_cases hhex
  have hdigits : List.takeWhile (isDigitOf 16) (code '0' :: x :: rest') = [code '0'] := by
    obtain rfl | rfl := hx <;> rfl
  have hrange : inRange t (readSign (str.dropWhile isSpace)).1 0 = (0, none) := by
    have hmax := t.max_nonneg
    have hmin := t.min_nonpos
    simp [inRange, hmax.not_gt, hmin.not_gt]
  have hnumeral : numeral 16 (code '0' :: x :: rest') = (16, code '0' :: x :: rest') := by
    rw [numeral, hdigit, if_neg (by simp), if_neg (by decide)]
  simp only [conversion, hrest, hnumeral, hdigits]
  rw [if_neg (List.cons_ne_nil _ _)]
  change Outcome.mk (inRange t _ 0).1 _ (inRange t _ 0).2 = _
  rw [hrange]
  rfl

theorem conversion_of_no_digit (hbase : base ≠ 0)
    (hhex : ¬(base = 16 ∧ hasHexPrefix (readSign (str.dropWhile isSpace)).2 = true))
    (hdigit : startsWithDigit base (readSign (str.dropWhile isSpace)).2 = false) :
    conversion t isSpace str toEnd base = ⟨0, if toEnd then some str else none, none⟩ := by
  have hnumeral : numeral base (readSign (str.dropWhile isSpace)).2 = (base, (readSign (str.dropWhile isSpace)).2) := by
    rw [numeral, if_neg, if_neg hbase]
    rintro ⟨h, hprefix, -⟩
    exact hhex ⟨h.resolve_left hbase, hprefix⟩
  simp only [conversion, hnumeral]
  exact if_pos (takeWhile_eq_nil_iff.mpr hdigit)

theorem inRange_errno (t : Numeric) (negative : Bool) (v : ℤ) :
    (inRange t negative v).2 = none ∨ (inRange t negative v).2 = some ERANGE := by
  simp only [inRange]
  split_ifs <;> simp

theorem conversion_errno (t : Numeric) (isSpace : ℤ → Bool) (str : Pointer) (toEnd : Bool) (base : ℤ) :
    (conversion t isSpace str toEnd base).errno = none ∨ (conversion t isSpace str toEnd base).errno = some ERANGE := by
  simp only [conversion]
  split
  · exact Or.inl rfl
  · exact inRange_errno t _ _

/-- When the loop ends, there was no digit. -/
theorem strToNum_eq_some_iff (hlow : 2 ≤ base) (hhigh : base ≤ 36) {o : Outcome} :
    (∃ fuel, strToNum t isSpace str toEnd base fuel = some o) ↔
      startsWithDigit base (digitsStart isSpace base str) = false ∧ o = ⟨0, if toEnd then some str else none, none⟩ := by
  have hvalid : ¬(base < 2 ∨ base > 36) := by omega
  have hdetect (p : Pointer) : detectBase base p = (base, p) := if_neg (by omega)
  simp only [strToNum, if_neg hvalid, hdetect]
  cases hdigit : startsWithDigit base (digitsStart isSpace base str) with
  | true =>
    constructor
    · rintro ⟨fuel, h⟩
      rw [convertLoop_of_digit fuel hdigit] at h
      cases h
    · rintro ⟨h, -⟩
      cases h
  | false =>
    constructor
    · rintro ⟨fuel, h⟩
      cases fuel with
      | zero => cases h
      | succ n =>
        rw [convertLoop_of_no_digit n hdigit] at h
        exact ⟨rfl, (Option.some_inj.mp h).symm⟩
    · rintro ⟨-, rfl⟩
      refine ⟨1, ?_⟩
      rw [convertLoop_of_no_digit 0 hdigit]
      rfl

/-- What is right is that nothing is converted where there is no numeral. -/
theorem strToNum_correct_iff (t : Numeric) (isSpace : ℤ → Bool) (str : Pointer) (toEnd : Bool) (base : ℤ)
    (hbase : base = 0 ∨ 2 ≤ base ∧ base ≤ 36) :
    (∃ fuel, strToNum t isSpace str toEnd base fuel = some (conversion t isSpace str toEnd base)) ↔
      base ≠ 0 ∧ startsWithDigit base (digitsStart isSpace base str) = false ∧
        (toEnd = true → ¬(base = 16 ∧ hasHexPrefix (readSign (skipSpace isSpace str)).2 = true)) := by
  obtain rfl | ⟨hlow, hhigh⟩ := hbase
  · constructor
    · rintro ⟨fuel, h⟩
      have herrno : (conversion t isSpace str toEnd 0).errno = some EDOM := by
        rw [← Option.some_inj.mp h]
      obtain hnone | hrange := conversion_errno t isSpace str toEnd 0
      · rw [hnone] at herrno
        cases herrno
      · rw [hrange] at herrno
        exact absurd herrno (by decide)
    · intro h
      exact absurd rfl h.1
  · have hbase : base ≠ 0 := by omega
    rw [strToNum_eq_some_iff hlow hhigh, digitsStart, skipHexPrefix, skipSpace_eq]
    by_cases hhex : base = 16 ∧ hasHexPrefix (readSign (str.dropWhile isSpace)).2 = true
    · rw [if_pos hhex]
      obtain ⟨rfl, hhex⟩ := hhex
      constructor
      · rintro ⟨hdigit, h⟩
        refine ⟨hbase, hdigit, ?_⟩
        rintro rfl -
        rw [conversion_hexPrefix rfl hhex hdigit, Outcome.mk.injEq, if_pos rfl, if_pos rfl, Option.some_inj] at h
        obtain ⟨x, rest, hrest, -⟩ := hasHexPrefix_cases hhex
        have hlength := (length_readSign_le (str.dropWhile isSpace)).trans (List.dropWhile_suffix isSpace).length_le
        rw [hrest] at hlength h
        have heq := congrArg List.length h.2.1
        simp only [List.tail_cons, List.length_cons] at heq hlength
        omega
      · rintro ⟨-, hdigit, h⟩
        refine ⟨hdigit, ?_⟩
        have hnull : toEnd = false := Bool.eq_false_iff.mpr fun hEnd => h hEnd ⟨rfl, hhex⟩
        rw [conversion_hexPrefix rfl hhex hdigit, hnull]
        rfl
    · rw [if_neg hhex]
      constructor
      · intro h
        exact ⟨hbase, h.1, fun _ => hhex⟩
      · intro h
        exact ⟨h.2.1, conversion_of_no_digit hbase hhex h.2.1⟩

theorem strToNum_correct_iff_sign :
    ∃ fuel, strToNum ⟨true, 64⟩ isspace [32, 43, 122] true 10 fuel = some ⟨0, some [32, 43, 122], none⟩ := by
  have hconversion : conversion ⟨true, 64⟩ isspace [32, 43, 122] true 10 = ⟨0, some [32, 43, 122], none⟩ := by
    decide +kernel
  rw [← hconversion]
  exact (strToNum_correct_iff ⟨true, 64⟩ isspace [32, 43, 122] true 10 (Or.inr (by decide))).mpr (by decide +kernel)

/-- The loop does not end for the string of the digit 1. -/
theorem strToNum_digit : ¬∃ fuel, strToNum ⟨true, 64⟩ isspace [49] true 10 fuel =
    some (conversion ⟨true, 64⟩ isspace [49] true 10) := by
  rintro ⟨fuel, h⟩
  have hnone : strToNum ⟨true, 64⟩ isspace [49] true 10 fuel = none := by
    rw [strToNum, if_neg (by decide)]
    have hloop : convertLoop ⟨true, 64⟩ 10 10 fuel ⟨[49], 0, false, false⟩ = none :=
      convertLoop_of_digit fuel (by decide +kernel)
    change (convertLoop ⟨true, 64⟩ 10 10 fuel ⟨[49], 0, false, false⟩).bind _ = none
    rw [hloop]
    rfl
  rw [hnone] at h
  cases h

end XviOs.StdLib
