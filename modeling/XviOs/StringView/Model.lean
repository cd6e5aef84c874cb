import Mathlib.Tactic
import XviOs.Library.Search

namespace XviOs.StringView

/-- The arithmetic of `size_t`. -/
def sizeAdd (a b : ℕ) : ℕ := (a + b) % 2 ^ 64

def sizeSub (a b : ℕ) : ℕ := (a + 2 ^ 64 - b) % 2 ^ 64

/-- A view of characters of so many bits. Its length is a difference of pointers. -/
structure View (w : ℕ) where
  chars : List (BitVec w)
  length_lt : chars.length < 2 ^ 63

section Search

variable {w : ℕ}

def View.size (s : View w) : ℕ := s.chars.length

def hash (c : BitVec w) : BitVec 8 := c.setWidth 8

def hashIsExact (w : ℕ) : Bool := w ≤ 8

/-- None is a read outside a view or a loop that did not end within its bound, and an inner none is `npos`, which is no
index of a view. This loop reads so many characters from an index on. -/
def scanForward (s : View w) (test : BitVec w → Option Bool) : ℕ → ℕ → Option (Option ℕ)
  | 0, _ => some none
  | n + 1, i => do
    let c ← s.chars[i]?
    if ← test c then some (some i) else scanForward s test n (i + 1)

/-- The reverse iterators, before an index. -/
def scanBackward (s : View w) (test : BitVec w → Option Bool) : ℕ → Option (Option ℕ)
  | 0 => some none
  | i + 1 => do
    let c ← s.chars[i]?
    if ← test c then some (some i) else scanBackward s test i

/-- `_Traits::find` in the characters of a whole view. -/
def contains (s : View w) (c : BitVec w) : Option Bool :=
  (scanForward s (fun x => some (x == c)) s.size 0).map Option.isSome

def fillTable (key : ℕ → Option (BitVec 8)) (length : ℕ) :
    ℕ → ℕ → (BitVec 8 → ℕ) → Option (BitVec 8 → ℕ)
  | 0, _, tbl => some tbl
  | n + 1, i, tbl => do
    let h ← key i
    fillTable key length n (i + 1) (Function.update tbl h (sizeSub (sizeSub length 1) i))

def generateSearchTable (needle : View w) : Option (BitVec 8 → ℕ) :=
  fillTable (fun i => needle.chars[i]?.map hash) needle.size (sizeSub needle.size 1) 0 fun _ => needle.size

def generateReverseSearchTable (needle : View w) : Option (BitVec 8 → ℕ) :=
  fillTable (fun i => needle.chars[sizeSub (sizeSub needle.size 1) i]?.map hash) needle.size (sizeSub needle.size 1) 0
    fun _ => needle.size

/-- The comparison from an index down to zero. -/
def compareDown (x y : ℕ → Option (BitVec w)) : ℕ → Option Bool
  | 0 => do
    let a ← x 0
    let b ← y 0
    some (a == b)
  | i + 1 => do
    let a ← x (i + 1)
    let b ← y (i + 1)
    if a == b then compareDown x y i else some false

def findLoop (s needle : View w) (tbl : BitVec 8 → ℕ) : ℕ → ℕ → Option (Option ℕ)
  | 0, _ => none
  | n + 1, offset =>
    if needle.size ≤ sizeSub s.size offset then do
      if ← compareDown (fun i => s.chars[offset + i]?) (fun i => needle.chars[i]?) (sizeSub needle.size 1) then
        some (some offset)
      else
        let c ← s.chars[sizeSub (sizeAdd offset needle.size) 1]?
        findLoop s needle tbl n (sizeAdd offset (tbl (hash c)))
    else some none

def find (s needle : View w) (pos : ℕ) : Option (Option ℕ) :=
  if s.size ≤ pos then some none
  else if needle.size = 1 then do
    let c ← needle.chars[0]?
    scanForward s (fun x => some (x == c)) (s.size - pos) pos
  else do
    let tbl ← generateSearchTable needle
    findLoop s needle tbl (s.size + 1) pos

def rfindLoop (s needle : View w) (tbl : BitVec 8 → ℕ) : ℕ → ℕ → Option (Option ℕ)
  | 0, _ => none
  | n + 1, pos =>
    if sizeSub needle.size 1 ≤ pos then do
      if ← compareDown (fun i => s.chars[sizeSub pos i]?)
          (fun i => needle.chars[sizeSub (sizeSub needle.size 1) i]?) (sizeSub needle.size 1) then
        some (some (sizeAdd (sizeSub pos needle.size) 1))
      else
        let c ← s.chars[sizeAdd (sizeSub pos needle.size) 1]?
        rfindLoop s needle tbl n (sizeSub pos (tbl (hash c)))
    else some none

/-- The number of the characters before the first one that the reverse iterators read. -/
def reverseEnd (s : View w) (pos : ℕ) : ℕ :=
  let offset := if pos < s.size then s.size - pos else 0
  s.size - offset

def rfind (s needle : View w) (pos : ℕ) : Option (Option ℕ) :=
  if needle.size = 1 then do
    let c ← needle.chars[0]?
    scanBackward s (fun x => some (x == c)) (reverseEnd s pos)
  else do
    let tbl ← generateReverseSearchTable needle
    rfindLoop s needle tbl (s.size + 1) (if s.size ≤ pos then sizeSub s.size 1 else pos)

def generateHashTable (needle : View w) : BitVec 8 → Bool :=
  needle.chars.foldl (fun tbl c => Function.update tbl (hash c) true) fun _ => false

/-- What is tested of a character to be in the set, or not to be in it. -/
def inSet (needle : View w) (tbl : BitVec 8 → Bool) (c : BitVec w) : Option Bool :=
  if tbl (hash c) then if hashIsExact w then some true else contains needle c
  else some false

def notInSet (needle : View w) (tbl : BitVec 8 → Bool) (c : BitVec w) : Option Bool :=
  if !tbl (hash c) then if hashIsExact w then some true else (contains needle c).map not
  else some false

def findFirstOf (s needle : View w) (pos : ℕ) : Option (Option ℕ) :=
  if s.size ≤ pos then some none
  else if needle.size = 1 then do
    let c ← needle.chars[0]?
    scanForward s (fun x => some (x == c)) (s.size - pos) pos
  else scanForward s (inSet needle (generateHashTable needle)) (s.size - pos) pos

def findLastOf (s needle : View w) (pos : ℕ) : Option (Option ℕ) :=
  if needle.size = 1 then do
    let c ← needle.chars[0]?
    scanBackward s (fun x => some (x == c)) (reverseEnd s pos)
  else scanBackward s (inSet needle (generateHashTable needle)) (reverseEnd s pos)

def findFirstNotOf (s needle : View w) (pos : ℕ) : Option (Option ℕ) :=
  if s.size ≤ pos then some none
  else if needle.size = 1 then do
    let c ← needle.chars[0]?
    scanForward s (fun x => some (x != c)) (s.size - pos) pos
  else scanForward s (notInSet needle (generateHashTable needle)) (s.size - pos) pos

def findLastNotOf (s needle : View w) (pos : ℕ) : Option (Option ℕ) :=
  if needle.size = 1 then do
    let c ← needle.chars[0]?
    scanBackward s (fun x => some (x != c)) (reverseEnd s pos)
  else scanBackward s (notInSet needle (generateHashTable needle)) (reverseEnd s pos)

end Search

end XviOs.StringView

namespace XviOs.StringView

open Library.Search

variable {w : ℕ} {s needle : View w} {test : BitVec w → Option Bool} {p : BitVec w → Bool} {pos i : ℕ}

/-- There is a character that passes the test. -/
def CharAt (s : View w) (p : BitVec w → Bool) (i : ℕ) : Prop := ∃ c, s.chars[i]? = some c ∧ p c = true

theorem CharAt.lt (h : CharAt s p i) : i < s.size := by
  obtain ⟨c, hc, -⟩ := h
  exact (List.getElem?_eq_some_iff.mp hc).1

theorem exists_getElem? (h : i < s.size) : ∃ c, s.chars[i]? = some c := ⟨_, List.getElem?_eq_getElem h⟩

theorem charAt_iff {c : BitVec w} (hc : s.chars[i]? = some c) : CharAt s p i ↔ p c = true := by
  constructor
  · rintro ⟨d, hd, hp⟩
    rw [hc, Option.some.injEq] at hd
    exact hd ▸ hp
  · exact fun hp => ⟨c, hc, hp⟩

theorem scanForward_spec (htest : ∀ c, test c = some (p c)) {n i : ℕ} (hn : i + n = s.size) :
    ∃ o, scanForward s test n i = some o ∧ IsLeastFrom (CharAt s p) i o := by
  induction n generalizing i with
  | zero =>
    refine ⟨none, rfl, fun j hj hat => ?_⟩
    have hlt := hat.lt
    omega
  | succ n ih =>
    obtain ⟨c, hc⟩ := exists_getElem? (s := s) (i := i) (by omega)
    by_cases hp : p c = true
    · refine ⟨some i, ?_, Nat.le_refl i, ⟨c, hc, hp⟩, fun j hj hji => absurd hj (Nat.not_le.mpr hji)⟩
      simp [scanForward, hc, htest, hp]
    · obtain ⟨o, ho, hleast⟩ := ih (i := i + 1) (by omega)
      refine ⟨o, ?_, hleast.of_not fun hat => hp ((charAt_iff hc).mp hat)⟩
      simp [scanForward, hc, htest, hp, ho]

theorem scanForward_eq (s : View w) (c : BitVec w) {n i : ℕ} (hn : i + n = s.size) :
    ∃ o, scanForward s (fun x => some (x == c)) n i = some o ∧ IsLeastFrom (CharAt s fun x => x == c) i o :=
  scanForward_spec (fun _ => rfl) hn

theorem scanBackward_spec (htest : ∀ c, test c = some (p c)) (hi : i ≤ s.size) :
    ∃ o, scanBackward s test i = some o ∧ IsGreatestBelow (CharAt s p) i o := by
  induction i with
  | zero => exact ⟨none, rfl, fun j hj => absurd hj (Nat.not_lt_zero j)⟩
  | succ i ih =>
    obtain ⟨c, hc⟩ := exists_getElem? (s := s) (i := i) hi
    by_cases hp : p c = true
    · refine ⟨some i, ?_, Nat.lt_succ_self i, ⟨c, hc, hp⟩, fun j hij hj => by omega⟩
      simp [scanBackward, hc, htest, hp]
    · obtain ⟨o, ho, hgreatest⟩ := ih (by omega)
      refine ⟨o, ?_, hgreatest.of_not fun hat => hp ((charAt_iff hc).mp hat)⟩
      simp [scanBackward, hc, htest, hp, ho]

theorem contains_eq (needle : View w) (c : BitVec w) : contains needle c = some (decide (c ∈ needle.chars)) := by
  obtain ⟨o, ho, hleast⟩ := scanForward_eq needle c (Nat.zero_add needle.size)
  rw [contains, ho, Option.map_some, Option.some.injEq, Bool.eq_iff_iff, decide_eq_true_eq, List.mem_iff_getElem?]
  cases o with
  | none =>
    refine iff_of_false Bool.false_ne_true ?_
    rintro ⟨i, hi⟩
    exact hleast i (Nat.zero_le i) ((charAt_iff hi).mpr (beq_self_eq_true c))
  | some i =>
    obtain ⟨d, hd, hp⟩ := hleast.2.1
    rw [beq_iff_eq] at hp
    exact iff_of_true rfl ⟨i, hp ▸ hd⟩

theorem hash_injective (h : hashIsExact w = true) : Function.Injective (hash : BitVec w → BitVec 8) := by
  intro c d hcd
  rw [hashIsExact, decide_eq_true_eq] at h
  apply BitVec.eq_of_toNat_eq
  have hnat := congrArg BitVec.toNat hcd
  have hpow : 2 ^ w ≤ 2 ^ 8 := Nat.pow_le_pow_right (by decide) h
  rwa [hash, hash, BitVec.toNat_setWidth, BitVec.toNat_setWidth, Nat.mod_eq_of_lt (c.isLt.trans_le hpow),
    Nat.mod_eq_of_lt (d.isLt.trans_le hpow)] at hnat

/-- A character cannot be told by its hash from those of the needle. -/
def Collides (needle : View w) (c : BitVec w) : Prop := ∃ d ∈ needle.chars, hash d = hash c

instance (needle : View w) (c : BitVec w) : Decidable (Collides needle c) :=
  inferInstanceAs (Decidable (∃ d ∈ needle.chars, hash d = hash c))

theorem generateHashTable_iff (needle : View w) (c : BitVec w) :
    generateHashTable needle (hash c) = true ↔ Collides needle c := by
  unfold generateHashTable Collides
  have hfold : ∀ (l : List (BitVec w)) (tbl : BitVec 8 → Bool),
      l.foldl (fun tbl c => Function.update tbl (hash c) true) tbl (hash c) = true ↔
        tbl (hash c) = true ∨ ∃ d ∈ l, hash d = hash c := by
    intro l
    induction l with
    | nil => simp
    | cons d l ih =>
      intro tbl
      rw [List.foldl_cons, ih, List.exists_mem_cons_iff, Function.update_apply]
      by_cases h : hash c = hash d
      · simp [h]
      · simp [h, Ne.symm h]
  rw [hfold]
  simp

theorem inSet_eq (needle : View w) (c : BitVec w) :
    inSet needle (generateHashTable needle) c = some (decide (c ∈ needle.chars)) := by
  unfold inSet
  have hmem : c ∈ needle.chars → Collides needle c := fun hc => ⟨c, hc, rfl⟩
  by_cases hcoll : generateHashTable needle (hash c) = true
  · rw [if_pos hcoll]
    split_ifs with hexact
    · obtain ⟨d, hd, hdc⟩ := (generateHashTable_iff needle c).mp hcoll
      rw [decide_eq_true (hash_injective hexact hdc ▸ hd)]
    · exact contains_eq needle c
  · rw [if_neg hcoll, decide_eq_false fun hc => hcoll ((generateHashTable_iff needle c).mpr (hmem hc))]

/-- What collides is taken to be in the set. -/
theorem notInSet_eq (needle : View w) (c : BitVec w) :
    notInSet needle (generateHashTable needle) c = some (decide (¬ Collides needle c)) := by
  unfold notInSet
  by_cases hcoll : Collides needle c
  · have htbl := (generateHashTable_iff needle c).mpr hcoll
    simp [htbl, hcoll]
  · have htbl : generateHashTable needle (hash c) = false :=
      Bool.eq_false_iff.mpr fun h => hcoll ((generateHashTable_iff needle c).mp h)
    have hmem : c ∉ needle.chars := fun hc => hcoll ⟨c, hc, rfl⟩
    simp [htbl, hcoll, contains_eq, hmem]

/-- The character at an index is in the set, or is not in it. -/
def InSetAt (s needle : View w) : ℕ → Prop := CharAt s fun c => decide (c ∈ needle.chars)

def NotInSetAt (s needle : View w) : ℕ → Prop := CharAt s fun c => decide (c ∉ needle.chars)

/-- The only character of a needle. -/
theorem exists_single (h : needle.size = 1) : ∃ c, needle.chars[0]? = some c ∧
    (∀ x, (x == c) = decide (x ∈ needle.chars)) ∧ ∀ x, (x != c) = decide (x ∉ needle.chars) := by
  obtain ⟨c, hc⟩ := List.length_eq_one_iff.mp h
  refine ⟨c, by rw [hc]; rfl, fun x => ?_, fun x => ?_⟩
  · rw [hc, Bool.eq_iff_iff, beq_iff_eq, decide_eq_true_eq, List.mem_singleton]
  · rw [hc, Bool.eq_iff_iff, bne_iff_ne, decide_eq_true_eq, List.mem_singleton]

theorem CharAt.isLeastFrom_none (h : s.size ≤ pos) : IsLeastFrom (CharAt s p) pos none :=
  fun _ hj hat => absurd hat.lt (Nat.not_lt.mpr (h.trans hj))

theorem reverseEnd_le (s : View w) (pos : ℕ) : reverseEnd s pos ≤ s.size := Nat.sub_le _ _

/-- The reverse iterators start before the position. -/
theorem scanBackward_reverseEnd (htest : ∀ c, test c = some (p c)) :
    ∃ o, scanBackward s test (reverseEnd s pos) = some o ∧ IsGreatestBelow (CharAt s p) pos o := by
  obtain ⟨o, ho, hgreatest⟩ := scanBackward_spec htest (reverseEnd_le s pos)
  refine ⟨o, ho, ?_⟩
  simp only [reverseEnd] at hgreatest
  split_ifs at hgreatest with hpos
  · rwa [Nat.sub_sub_self hpos.le] at hgreatest
  · exact (hgreatest.extend_iff (Nat.le_of_not_lt hpos)).mpr fun j _ hj => hj.lt

theorem scanBackward_reverseEnd_eq (s : View w) (c : BitVec w) (pos : ℕ) :
    ∃ o, scanBackward s (fun x => some (x == c)) (reverseEnd s pos) = some o ∧
      IsGreatestBelow (CharAt s fun x => x == c) pos o :=
  scanBackward_reverseEnd fun _ => rfl

theorem findFirstOf_spec (s needle : View w) (pos : ℕ) :
    ∃ o, findFirstOf s needle pos = some o ∧ IsLeastFrom (InSetAt s needle) pos o := by
  unfold findFirstOf
  split_ifs with hpos hsingle
  · exact ⟨none, rfl, CharAt.isLeastFrom_none hpos⟩
  · obtain ⟨c, hc, hin, -⟩ := exists_single hsingle
    rw [hc]
    exact scanForward_spec (fun x => congrArg some (hin x)) (by omega)
  · exact scanForward_spec (inSet_eq needle) (by omega)

theorem findLastOf_iff (s needle : View w) (pos : ℕ) :
    (∃ o, findLastOf s needle pos = some o ∧ IsGreatestBelow (InSetAt s needle) (pos + 1) o) ↔
      ¬ InSetAt s needle pos := by
  have hfound : ∃ o, findLastOf s needle pos = some o ∧ IsGreatestBelow (InSetAt s needle) pos o := by
    unfold findLastOf
    split_ifs with hsingle
    · obtain ⟨c, hc, hin, -⟩ := exists_single hsingle
      rw [hc]
      exact scanBackward_reverseEnd fun x => congrArg some (hin x)
    · exact scanBackward_reverseEnd (inSet_eq needle)
  obtain ⟨o, ho, hgreatest⟩ := hfound
  rw [← hgreatest.succ_iff]
  simp [ho]

/-- The characters that are not in the set and not taken to be. -/
theorem notInSetAt_of_not_collides (h : CharAt s (fun c => decide (¬ Collides needle c)) i) : NotInSetAt s needle i := by
  obtain ⟨c, hc, hcoll⟩ := h
  rw [decide_eq_true_eq] at hcoll
  exact ⟨c, hc, decide_eq_true fun hmem => hcoll ⟨c, hmem, rfl⟩⟩

theorem findFirstNotOf_iff (s needle : View w) (pos : ℕ) :
    (∃ o, findFirstNotOf s needle pos = some o ∧ IsLeastFrom (NotInSetAt s needle) pos o) ↔
      needle.size = 1 ∨ ∀ i, IsLeastFrom (NotInSetAt s needle) pos (some i) →
        CharAt s (fun c => decide (¬ Collides needle c)) i := by
  by_cases hsingle : needle.size = 1
  · refine iff_of_true ?_ (Or.inl hsingle)
    unfold findFirstNotOf
    split_ifs with hpos
    · exact ⟨none, rfl, CharAt.isLeastFrom_none hpos⟩
    · obtain ⟨c, hc, -, hnot⟩ := exists_single hsingle
      rw [hc]
      exact scanForward_spec (fun x => congrArg some (hnot x)) (by omega)
  · have hfound : ∃ o, findFirstNotOf s needle pos = some o ∧
        IsLeastFrom (CharAt s fun c => decide (¬ Collides needle c)) pos o := by
      unfold findFirstNotOf
      split_ifs with hpos
      · exact ⟨none, rfl, CharAt.isLeastFrom_none hpos⟩
      · exact scanForward_spec (notInSet_eq needle) (by omega)
    obtain ⟨o, ho, hleast⟩ := hfound
    rw [or_iff_right hsingle, ← hleast.weaken_iff fun i => notInSetAt_of_not_collides]
    simp [ho]

theorem findLastNotOf_iff (s needle : View w) (pos : ℕ) :
    (∃ o, findLastNotOf s needle pos = some o ∧ IsGreatestBelow (NotInSetAt s needle) (pos + 1) o) ↔
      ¬ NotInSetAt s needle pos ∧ (needle.size = 1 ∨ ∀ i, IsGreatestBelow (NotInSetAt s needle) pos (some i) →
        CharAt s (fun c => decide (¬ Collides needle c)) i) := by
  by_cases hsingle : needle.size = 1
  · have hfound : ∃ o, findLastNotOf s needle pos = some o ∧ IsGreatestBelow (NotInSetAt s needle) pos o := by
      obtain ⟨c, hc, -, hnot⟩ := exists_single hsingle
      rw [findLastNotOf, if_pos hsingle, hc]
      exact scanBackward_reverseEnd fun x => congrArg some (hnot x)
    obtain ⟨o, ho, hgreatest⟩ := hfound
    rw [and_iff_left (Or.inl hsingle), ← hgreatest.succ_iff]
    simp [ho]
  · obtain ⟨o, ho, hgreatest⟩ := scanBackward_reverseEnd (s := s) (notInSet_eq needle)
    have hrun : findLastNotOf s needle pos = some o := by rw [findLastNotOf, if_neg hsingle, ho]
    rw [or_iff_right hsingle, ← hgreatest.weaken_iff fun i => notInSetAt_of_not_collides]
    simp only [hrun, Option.some.injEq, exists_eq_left']
    constructor
    · intro h
      have hpos : ¬ NotInSetAt s needle pos := by
        intro hat
        cases o with
        | none => exact h pos (Nat.lt_succ_self pos) hat
        | some i => exact h.2.2 pos hgreatest.1 (Nat.lt_succ_self pos) hat
      exact ⟨hpos, (isGreatestBelow_succ_iff hpos).mp h⟩
    · rintro ⟨hpos, h⟩
      exact h.of_not hpos

end XviOs.StringView
