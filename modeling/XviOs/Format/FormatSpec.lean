import Mathlib.Tactic
import XviOs.Format.CharConv

namespace XviOs.Format

/-- The value of a `_CharT`. -/
abbrev CharT := Int

def lit (c : Char) : CharT := c.toNat

/-- `std::size_t` -/
def sizeT : IntType := ⟨false, 64, Nat.le_add_right 8 56⟩

/-- `std::ptrdiff_t` -/
def ptrdiffT : IntType := ⟨true, 64, Nat.le_add_right 8 56⟩

/-- How a call ends that does not return: with a `format_error`, or in a state that C++ does not define. -/
inductive Fault where
  | formatError (what : String)
  | undefined
  deriving DecidableEq

abbrev Result := Except Fault

def formatError {α : Type} (what : String) : Result α := .error (.formatError what)

theorem bind_eq_ok {α β : Type} {x : Result α} {f : α → Result β} {b : β} :
    x >>= f = .ok b ↔ ∃ a, x = .ok a ∧ f a = .ok b := by
  cases x with
  | error fault =>
    constructor
    · intro h
      cases h
    · rintro ⟨_, h, -⟩
      cases h
  | ok a => exact ⟨fun h => ⟨a, rfl, h⟩, fun ⟨_, ha, h⟩ => Except.ok.inj ha ▸ h⟩

theorem ok_bind {α β : Type} (a : α) (f : α → Result β) : Except.ok a >>= f = f a := rfl

section ReplacementField

/-- The replacement field from inside it, with its closing brace, and what comes after it. -/
def scanField : Nat → List CharT → Result (List CharT × List CharT)
  | _, [] => formatError "invalid format string: unterminated replacement field"
  | depth, c :: s =>
    if c = lit '{' then do
      let (field, rest) ← scanField (depth + 1) s
      return (c :: field, rest)
    else if c = lit '}' then
      if depth = 1 then .ok ([c], s)
      else do
        let (field, rest) ← scanField (depth - 1) s
        return (c :: field, rest)
    else do
      let (field, rest) ← scanField depth s
      return (c :: field, rest)

/-- The text before the next replacement field, the field, and what comes after it. The field is empty when there is
none. -/
def findNextReplacementField : List CharT → Result (List CharT × List CharT × List CharT)
  | [] => .ok ([], [], [])
  | c :: s =>
    if c ≠ lit '{' ∧ c ≠ lit '}' then do
      let (before, field, rest) ← findNextReplacementField s
      return (c :: before, field, rest)
    else match s with
      | [] => formatError "invalid format string: unterminated replacement field"
      | next :: s' =>
        if c = next then .ok ([], [c, next], s')
        else if c = lit '}' then formatError "invalid format string: unexpected '\x7d' character"
        else do
          let (field, rest) ← scanField 1 (next :: s')
          return ([], c :: field, rest)

inductive ReplacementArgIdType where
  | unknown
  | explicit
  | implicit
  deriving DecidableEq

structure ReplacementFieldInfo where
  formatSpec : List CharT := []
  argId : Nat := 0
  argIdType : ReplacementArgIdType := .unknown
  replacementChar : CharT := 0

/-- `__is_digit` -/
def isDigitChar (c : CharT) : Bool := lit '0' ≤ c ∧ c ≤ lit '9'

/-- One more digit of a number, in a `std::size_t`. -/
def addDigit (val : Nat) (c : CharT) : Nat := (10 * val + (c - lit '0').toNat) % 2 ^ 64

/-- The loop over the digits of an argument ID. It reads one character past them. -/
def readArgId : Nat → List CharT → Result (Nat × List CharT)
  | _, [] => .error .undefined
  | argId, c :: p => if isDigitChar c then readArgId (addDigit argId c) p else .ok (argId, c :: p)

/-- The ID that a field begins with, if it does. -/
def parseArgId : List CharT → Result (ReplacementFieldInfo × List CharT)
  | [] => .error .undefined
  | c :: p =>
    if isDigitChar c then
      if c = lit '0' then
        match p with
        | [] => .error .undefined
        | d :: _ =>
          if isDigitChar d then formatError "invalid format string: argument IDs must not have leading zeroes"
          else .ok (⟨[], 0, .explicit, 0⟩, p)
      else do
        let (argId, p) ← readArgId 0 (c :: p)
        return (⟨[], argId, .explicit, 0⟩, p)
    else .ok (⟨[], 0, .implicit, 0⟩, c :: p)

def parseReplacementField : List CharT → Result ReplacementFieldInfo
  | c :: next :: s =>
    if c = next then .ok ⟨[], 0, .unknown, c⟩
    else do
      let (info, p) ← parseArgId (next :: s)
      match p with
      | [] => .error .undefined
      | c :: q =>
        if c = lit ':' then
          if q = [] then .error .undefined else return { info with formatSpec := q.dropLast }
        else if q ≠ [] then formatError "invalid format string: malformed replacement field"
        else return info
  | _ => .error .undefined

end ReplacementField

section Spec

inductive Align where
  | default
  | begin
  | middle
  | end
  deriving DecidableEq

inductive Sign where
  | implicitDefault
  | default
  | always
  | leadingSpace
  deriving DecidableEq

/-- How a width or a precision is given. -/
inductive WpType where
  | none
  | fixed
  | runtimeArgImplicit
  | runtimeArgExplicit
  deriving DecidableEq

/-- The presentation types. The value of the character E has no name in the source. -/
inductive Presentation where
  | default
  | floatingPoint
  | a | A | b | B | c | d | e | E | f | F | g | G | o | p | s | x | X
  deriving DecidableEq

structure FormatSpec where
  altForm : Bool := false
  zeroPad : Bool := false
  localeSpecific : Bool := false
  implicitAlignment : Bool := false
  align : Align := .default
  sign : Sign := .implicitDefault
  width : WpType := .none
  precision : WpType := .none
  fillChar : CharT := lit ' '
  widthVal : Nat := 0
  precisionVal : Nat := 0
  type : Presentation := .default
  deriving DecidableEq

def parseAlign (c : CharT) : Option Align :=
  if c = lit '<' then some .begin
  else if c = lit '^' then some .middle
  else if c = lit '>' then some .end
  else none

def parseSign (c : CharT) : Option Sign :=
  if c = lit '+' then some .always
  else if c = lit '-' then some .default
  else if c = lit ' ' then some .leadingSpace
  else none

def parsePresentation (c : CharT) : Option Presentation :=
  [('a', Presentation.a), ('A', .A), ('b', .b), ('B', .B), ('c', .c), ('d', .d), ('e', .e), ('E', .E), ('f', .f),
    ('F', .F), ('g', .g), ('G', .G), ('o', .o), ('p', .p), ('s', .s), ('x', .x), ('X', .X)].findSome?
      fun entry => if c = lit entry.1 then some entry.2 else none

def readInt : Nat → List CharT → Nat × List CharT
  | val, [] => (val, [])
  | val, c :: s => if isDigitChar c then readInt (addDigit val c) s else (val, c :: s)

def extractInt (s : List CharT) : Result (Nat × List CharT) :=
  if 2 ≤ s.length ∧ s.head? = some (lit '0') then
    formatError "invalid format string: leading zeroes are forbidden in replacement fields"
  else .ok (readInt 0 s)

/-- A character flag that may stand next. -/
def parseFlag (flag : Char) : List CharT → Bool × List CharT
  | [] => (false, [])
  | c :: s => if c = lit flag then (true, s) else (false, c :: s)

/-- A width or a precision taken from an argument, after its opening brace. -/
def parseRuntimeWp (malformed : String) (s : List CharT) : Result (WpType × Nat × List CharT) := do
  let (type, val, s) ← match s with
    | [] => .error .undefined
    | c :: _ =>
      if isDigitChar c then do
        let (val, s) ← extractInt s
        pure (WpType.runtimeArgExplicit, val, s)
      else pure (WpType.runtimeArgImplicit, 0, s)
  match s with
  | [] => .error .undefined
  | c :: s => if c ≠ lit '}' then formatError malformed else return (type, val, s)

def parseWp (malformed : String) : List CharT → Result (WpType × Nat × List CharT)
  | [] => .ok (.none, 0, [])
  | c :: s =>
    if isDigitChar c then do
      let (val, s) ← extractInt (c :: s)
      return (.fixed, val, s)
    else if c = lit '{' then parseRuntimeWp malformed s
    else .ok (.none, 0, c :: s)

/-- The fill character with its alignment, or the alignment alone. -/
def parseFillAlign : List CharT → CharT × Align × List CharT
  | c :: d :: s =>
    match parseAlign d with
    | some align => (c, align, s)
    | none =>
      match parseAlign c with
      | some align => (lit ' ', align, d :: s)
      | none => (lit ' ', .default, c :: d :: s)
  | [c] =>
    match parseAlign c with
    | some align => (lit ' ', align, [])
    | none => (lit ' ', .default, [c])
  | [] => (lit ' ', .default, [])

def parseSignField : List CharT → Sign × List CharT
  | [] => (.implicitDefault, [])
  | c :: s =>
    match parseSign c with
    | some sign => (sign, s)
    | none => (.implicitDefault, c :: s)

def parsePrecision (s : List CharT) : Result (WpType × Nat × List CharT) :=
  match parseFlag '.' s with
  | (false, s) => .ok (.none, 0, s)
  | (true, []) => formatError "invalid format string: empty precision in format specifier"
  | (true, s) => parseWp "invalid format string: malformed precision arg in format specifier" s

def parseType : List CharT → Result (Presentation × List CharT)
  | [] => .ok (.default, [])
  | c :: s =>
    match parsePresentation c with
    | some type => .ok (type, s)
    | none => formatError "invalid format string: unknown presentation type"

def parseStdfmtFormatSpec (s : List CharT) : Result FormatSpec :=
  if s = [] then .ok {}
  else do
    let (fillChar, align, s) := parseFillAlign s
    let (sign, s) := parseSignField s
    let (altForm, s) := parseFlag '#' s
    let (zeroPad, s) := parseFlag '0' s
    let (width, widthVal, s) ← parseWp "invalid format string: malformed width arg in format specifier" s
    let (precision, precisionVal, s) ← parsePrecision s
    let (localeSpecific, s) := parseFlag 'L' s
    let (type, s) ← parseType s
    if s ≠ [] then formatError "invalid format string: extra character(s) at end of format specifier"
    else
      return { altForm, zeroPad, localeSpecific, align, sign, width, precision, fillChar, widthVal, precisionVal, type }

end Spec

section ParseContext

structure ParseContext where
  fmt : List CharT
  indexType : ReplacementArgIdType := .unknown
  nextArgId : Nat := 0

def ParseContext.takeArgId (pc : ParseContext) : Result (Nat × ParseContext) :=
  if pc.indexType = .explicit then
    formatError "invalid format string: mixed implicit and explicit argument numbers"
  else .ok (pc.nextArgId, { pc with indexType := .implicit, nextArgId := pc.nextArgId + 1 })

def ParseContext.checkArgId (pc : ParseContext) : Result ParseContext :=
  if pc.indexType = .implicit then
    formatError "invalid format string: mixed implicit and explicit argument numbers"
  else .ok { pc with indexType := .explicit }

/-- The ID of the argument that a runtime width or precision names. -/
def resolveArgId (type : WpType) (val : Nat) (pc : ParseContext) : Result (Nat × ParseContext) :=
  match type with
  | .runtimeArgImplicit => pc.takeArgId
  | .runtimeArgExplicit => do return (val, ← pc.checkArgId)
  | _ => .ok (val, pc)

/-- `__stdfmt_formatter_base::parse` -/
def parse (pc : ParseContext) : Result (FormatSpec × ParseContext) := do
  let spec ← parseStdfmtFormatSpec pc.fmt
  let (widthVal, pc) ← resolveArgId spec.width spec.widthVal pc
  let (precisionVal, pc) ← resolveArgId spec.precision spec.precisionVal pc
  return ({ spec with widthVal, precisionVal }, pc)

end ParseContext

end XviOs.Format
