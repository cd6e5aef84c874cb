import Mathlib.Tactic

namespace XviOs.StdLib

def cTypeLower : BitVec 8 := 0x01

def cTypeUpper : BitVec 8 := 0x02

def cTypeBlank : BitVec 8 := 0x04

def cTypeDigit : BitVec 8 := 0x08

def cTypePrint : BitVec 8 := 0x10

def cTypeSpace : BitVec 8 := 0x20

def cTypeXDigit : BitVec 8 := 0x40

def cTypeCntrl : BitVec 8 := 0x80

def ccControl : BitVec 8 := cTypeCntrl

def ccSpace : BitVec 8 := cTypeBlank ||| cTypeSpace ||| cTypePrint

def ccTab : BitVec 8 := cTypeCntrl ||| cTypeBlank ||| cTypeSpace

def ccFeed : BitVec 8 := cTypeCntrl ||| cTypeSpace

def ccPunct : BitVec 8 := cTypePrint

def ccDigit : BitVec 8 := cTypeDigit ||| cTypeXDigit ||| cTypePrint

def ccLowerX : BitVec 8 := cTypeLower ||| cTypeXDigit ||| cTypePrint

def ccUpperX : BitVec 8 := cTypeUpper ||| cTypeXDigit ||| cTypePrint

def ccLower : BitVec 8 := cTypeLower ||| cTypePrint

def ccUpper : BitVec 8 := cTypeUpper ||| cTypePrint

/-- The table by runs of characters of one kind. -/
def cTypes : List (BitVec 8) :=
  List.replicate 9 ccControl ++ [ccTab] ++ List.replicate 4 ccFeed ++ List.replicate 18 ccControl ++ [ccSpace] ++
    List.replicate 15 ccPunct ++ List.replicate 10 ccDigit ++ List.replicate 7 ccPunct ++
    List.replicate 6 ccUpperX ++ List.replicate 20 ccUpper ++ List.replicate 6 ccPunct ++
    List.replicate 6 ccLowerX ++ List.replicate 20 ccLower ++ List.replicate 4 ccPunct ++ [ccControl]

/-- `is`, for the classes that exclude no other. -/
def isAny (c : ℤ) (any : BitVec 8) : Bool :=
  if c < 0 ∨ c > 127 then false else cTypes.getD c.toNat 0 &&& any ≠ 0

def isdigit (c : ℤ) : Bool := isAny c cTypeDigit

def islower (c : ℤ) : Bool := isAny c cTypeLower

def isupper (c : ℤ) : Bool := isAny c cTypeUpper

def isspace (c : ℤ) : Bool := isAny c cTypeSpace

/-- The classes of the codes in the table. -/
theorem cTypes_classes : ∀ n < 128,
    (cTypes.getD n 0 &&& cTypeDigit ≠ 0 ↔ 48 ≤ n ∧ n ≤ 57) ∧
      (cTypes.getD n 0 &&& cTypeSpace ≠ 0 ↔ n = 32 ∨ 9 ≤ n ∧ n ≤ 13) ∧
      (cTypes.getD n 0 &&& cTypeUpper ≠ 0 ↔ 65 ≤ n ∧ n ≤ 90) ∧
      (cTypes.getD n 0 &&& cTypeLower ≠ 0 ↔ 97 ≤ n ∧ n ≤ 122) := by
  decide +kernel

/-- Each class is one of codes in the table. -/
theorem isAny_eq {any : BitVec 8} {p : ℕ → Prop} (htable : ∀ n < 128, cTypes.getD n 0 &&& any ≠ 0 ↔ p n) {c : ℤ} :
    isAny c any = true ↔ 0 ≤ c ∧ c ≤ 127 ∧ p c.toNat := by
  rw [isAny]
  split_ifs with hc
  · simp only [false_iff, not_and]
    omega
  · rw [decide_eq_true_iff, htable c.toNat (by omega)]
    constructor
    · intro hp
      exact ⟨by omega, by omega, hp⟩
    · exact fun h => h.2.2

theorem isdigit_iff {c : ℤ} : isdigit c = true ↔ 48 ≤ c ∧ c ≤ 57 := by
  rw [isdigit, isAny_eq fun n hn => (cTypes_classes n hn).1]
  omega

theorem isspace_iff {c : ℤ} : isspace c = true ↔ c = 32 ∨ 9 ≤ c ∧ c ≤ 13 := by
  rw [isspace, isAny_eq fun n hn => (cTypes_classes n hn).2.1]
  omega

theorem isupper_iff {c : ℤ} : isupper c = true ↔ 65 ≤ c ∧ c ≤ 90 := by
  rw [isupper, isAny_eq fun n hn => (cTypes_classes n hn).2.2.1]
  omega

theorem islower_iff {c : ℤ} : islower c = true ↔ 97 ≤ c ∧ c ≤ 122 := by
  rw [islower, isAny_eq fun n hn => (cTypes_classes n hn).2.2.2]
  omega

end XviOs.StdLib
