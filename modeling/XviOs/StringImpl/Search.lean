import Mathlib.Tactic
import XviOs.Library.Search

namespace XviOs.StringImpl

open Library.Search

/-- The conversion of a `std::byte` to an `int`. -/
def byteToInt (c : UInt8) : Int := c.toNat

/-- The conversion of a `char`, which is a signed type on some targets. -/
def charToInt (charSigned : Bool) (c : UInt8) : Int := if charSigned then c.toInt8.toInt else c.toNat

section Compare

variable (toInt : UInt8 → Int)

/-- The difference of the first elements that differ. Nothing is the result of a read past the end. -/
def memoryCompare : List UInt8 → List UInt8 → Nat → Option Int
  | _, _, 0 => some 0
  | a :: one, b :: two, count + 1 =>
    if toInt a - toInt b ≠ 0 then some (toInt a - toInt b) else memoryCompare one two count
  | _, _, _ + 1 => none

def stringCompare : List UInt8 → List UInt8 → Nat → Option Int
  | _, _, 0 => some 0
  | a :: one, b :: two, n + 1 =>
    if toInt a - toInt b ≠ 0 then some (toInt a - toInt b) else if a = 0 then some 0 else stringCompare one two n
  | _, _, _ + 1 => none

end Compare

def stringLength : List UInt8 → Option Nat
  | [] => none
  | c :: string => if c ≠ 0 then (stringLength string).map (· + 1) else some 0

/-- The loop of `memory_search_naive`, for a pattern that is not empty. -/
def memoryNaiveLoop (pattern : List UInt8) (patternLen : Nat) : Nat → List UInt8 → Nat → Option (Option Nat)
  | 0, _, _ => some none
  | stringLen + 1, string, pos =>
    if stringLen + 1 ≥ patternLen then
      (memoryCompare byteToInt string pattern patternLen).bind fun diff =>
        if diff = 0 then some (some pos) else memoryNaiveLoop pattern patternLen stringLen string.tail (pos + 1)
    else some none

def memorySearchNaive (string : List UInt8) (stringLen : Nat) (pattern : List UInt8) (patternLen : Nat) :
    Option (Option Nat) :=
  if patternLen = 0 then some (some 0) else memoryNaiveLoop pattern patternLen stringLen string 0

def stringSearchNaive (toInt : UInt8 → Int) (pattern : List UInt8) (patternLen : Nat) :
    List UInt8 → Nat → Option (Option Nat)
  | [], _ => none
  | c :: string, pos =>
    if c ≠ 0 then
      (stringCompare toInt (c :: string) pattern patternLen).bind fun diff =>
        if diff = 0 then some (some pos) else stringSearchNaive toInt pattern patternLen string (pos + 1)
    else some none

/-- The table has an entry for half of the values of an element. -/
def tableSize : Nat := 1 <<< (1 * 8 - 1)

/-- The preprocessing of the pattern but for its last element. Nothing is the result of a write past the table. -/
def fillTable (patternLen : Nat) : List UInt8 → Nat → List Nat → Option (List Nat)
  | [], _, table => some table
  | c :: pattern, i, table =>
    if c.toNat < table.length then fillTable patternLen pattern (i + 1) (table.set c.toNat (patternLen - i - 1))
    else none

/-- The search. Nothing is the result of a read past the string or the table, of a difference that wraps, and of a
step that would not end. -/
def horspoolLoop (toInt : UInt8 → Int) (string : List UInt8) (stringLen : Nat) (pattern : List UInt8) (patternLen : Nat)
    (table : List Nat) (offset : Nat) : Option (Option Nat) :=
  if _h : stringLen < offset then none
  else if stringLen - offset ≥ patternLen then
    (memoryCompare toInt (string.drop offset) pattern patternLen).bind fun diff =>
      if diff = 0 then some (some offset)
      else
        (string[offset + patternLen - 1]?).bind fun c => (table[c.toNat]?).bind fun step =>
          if _hstep : 0 < step then horspoolLoop toInt string stringLen pattern patternLen table (offset + step) else none
  else some none
termination_by stringLen + 1 - offset

/-- The search with a table. -/
def searchHorspool (toInt : UInt8 → Int) (string : List UInt8) (stringLen : Nat) (pattern : List UInt8)
    (patternLen : Nat) : Option (Option Nat) :=
  (fillTable patternLen (pattern.take (patternLen - 1)) 0 (List.replicate tableSize patternLen)).bind fun table =>
    horspoolLoop toInt string stringLen pattern patternLen table 0

def memorySearchHorspool (string : List UInt8) (stringLen : Nat) (pattern : List UInt8) (patternLen : Nat) :
    Option (Option Nat) := searchHorspool byteToInt string stringLen pattern patternLen

def stringSearchHorspool (toInt : UInt8 → Int) (string pattern : List UInt8) (patternLen : Nat) : Option (Option Nat) :=
  (stringLength string).bind fun stringLen => searchHorspool toInt string stringLen pattern patternLen

def memorySearch (string : List UInt8) (stringLen : Nat) (pattern : List UInt8) (patternLen : Nat) : Option (Option Nat) :=
  if patternLen = 0 then some (some 0)
  else if patternLen < 8 then memorySearchNaive string stringLen pattern patternLen
  else memorySearchHorspool string stringLen pattern patternLen

def stringSearch (charSigned : Bool) (string pattern : List UInt8) : Option (Option Nat) :=
  (stringLength pattern).bind fun patternLen =>
    if patternLen = 0 then some (some 0)
    else if patternLen < 8 then stringSearchNaive (charToInt charSigned) pattern patternLen string 0
    else stringSearchHorspool (charToInt charSigned) string pattern patternLen

/-- What a search gives: the first position of the pattern, with no access out of bounds. -/
def Finds (text pattern : List UInt8) (result : Option (Option Nat)) : Prop :=
  ∃ r, result = some r ∧ IsFirst text pattern r

/-- The bytes that the table of the search is indexed with have an entry in it. -/
structure TableHolds (text pattern : List UInt8) : Prop where
  inPattern : ∀ c ∈ pattern.dropLast, c.toNat < tableSize
  inText : ∀ o c, Tried text pattern o → FailsAt text pattern o c → c.toNat < tableSize

section Compare

variable {toInt : UInt8 → Int} {pattern : List UInt8}

theorem memoryCompare_spec (hinj : Function.Injective toInt) (text pattern tail : List UInt8)
    (h : pattern.length ≤ text.length) :
    ∃ diff, memoryCompare toInt text (pattern ++ tail) pattern.length = some diff ∧ (diff = 0 ↔ pattern <+: text) := by
  induction pattern generalizing text with
  | nil => exact ⟨0, by cases text <;> rfl, iff_of_true rfl List.nil_prefix⟩
  | cons b pattern ih =>
    cases text with
    | nil => exact absurd h (by simp)
    | cons a text =>
      rw [List.length_cons, List.cons_append, memoryCompare, List.cons_prefix_cons]
      by_cases hab : a = b
      · obtain ⟨diff, hdiff, hiff⟩ := ih text (Nat.le_of_succ_le_succ h)
        rw [hab, sub_self, if_neg (by simp)]
        exact ⟨diff, hdiff, by rw [hiff, and_iff_right rfl]⟩
      · have hne : toInt a - toInt b ≠ 0 := fun hz => hab (hinj (sub_eq_zero.mp hz))
        exact ⟨_, if_pos hne, iff_of_false hne fun hp => hab hp.1.symm⟩

theorem stringCompare_spec (hinj : Function.Injective toInt) (text tail rest : List UInt8) (hpattern : 0 ∉ pattern) :
    ∃ diff, stringCompare toInt (text ++ 0 :: rest) (pattern ++ tail) pattern.length = some diff ∧
      (diff = 0 ↔ pattern <+: text) := by
  induction pattern generalizing text with
  | nil => exact ⟨0, by cases text <;> rfl, iff_of_true rfl List.nil_prefix⟩
  | cons b pattern ih =>
    obtain ⟨hb, hpattern⟩ := not_or.mp (List.mem_cons.not.mp hpattern)
    cases text with
    | nil =>
      have hne : toInt 0 - toInt b ≠ 0 := fun hz => hb (hinj (sub_eq_zero.mp hz))
      exact ⟨_, if_pos hne, iff_of_false hne (by simp)⟩
    | cons a text =>
      rw [List.length_cons, List.cons_append, List.cons_append, stringCompare, List.cons_prefix_cons]
      by_cases hab : a = b
      · obtain ⟨diff, hdiff, hiff⟩ := ih text hpattern
        rw [hab, sub_self, if_neg (by simp), if_neg (Ne.symm hb)]
        exact ⟨diff, hdiff, by rw [hiff, and_iff_right rfl]⟩
      · have hne : toInt a - toInt b ≠ 0 := fun hz => hab (hinj (sub_eq_zero.mp hz))
        exact ⟨_, if_pos hne, iff_of_false hne fun hp => hab hp.1.symm⟩

theorem stringLength_append (hpattern : 0 ∉ pattern) (rest : List UInt8) :
    stringLength (pattern ++ 0 :: rest) = some pattern.length := by
  induction pattern with
  | nil => rfl
  | cons b pattern ih =>
    obtain ⟨hb, hpattern⟩ := not_or.mp (List.mem_cons.not.mp hpattern)
    rw [List.cons_append, stringLength, if_pos (Ne.symm hb), ih hpattern]
    rfl

theorem byteToInt_injective : Function.Injective byteToInt := by
  intro a b h
  exact UInt8.toNat_inj.mp (Int.ofNat_inj.mp h)

theorem charToInt_injective (charSigned : Bool) : Function.Injective (charToInt charSigned) := by
  cases charSigned with
  | false => exact byteToInt_injective
  | true =>
    intro a b h
    have hint : a.toInt8 = b.toInt8 := Int8.toInt_inj.mp h
    have huint := congrArg Int8.toUInt8 hint
    simpa using huint

end Compare

section Naive

variable {toInt : UInt8 → Int} {pattern text : List UInt8} {pos : Nat}

theorem memoryNaiveLoop_spec (hne : pattern ≠ []) {stringLen : Nat} (hlen : pos + stringLen = text.length)
    (hbefore : ∀ j < pos, ¬ OccursAt text pattern j) :
    Finds text pattern (memoryNaiveLoop pattern pattern.length stringLen (text.drop pos) pos) := by
  have hpos := List.length_pos_iff.mpr hne
  induction stringLen generalizing pos with
  | zero =>
    refine ⟨none, rfl, ?_⟩
    intro j hocc
    have hle := hocc.add_length_le hne
    exact hbefore j (by omega) hocc
  | succ stringLen ih =>
    rw [memoryNaiveLoop]
    by_cases hfit : stringLen + 1 ≥ pattern.length
    · obtain ⟨diff, hdiff, hiff⟩ := memoryCompare_spec byteToInt_injective (text.drop pos) pattern []
        (by rw [List.length_drop]; omega)
      rw [List.append_nil] at hdiff
      rw [if_pos hfit, hdiff, Option.bind_some]
      by_cases hzero : diff = 0
      · rw [if_pos hzero]
        exact ⟨some pos, rfl, hiff.mp hzero, hbefore⟩
      · rw [if_neg hzero, List.tail_drop]
        apply ih (by omega)
        intro j hj hocc
        obtain hlt | rfl := Nat.lt_succ_iff_lt_or_eq.mp hj
        · exact hbefore j hlt hocc
        · exact hzero (hiff.mpr hocc)
    · rw [if_neg hfit]
      refine ⟨none, rfl, ?_⟩
      intro j hocc
      have hle := hocc.add_length_le hne
      exact hbefore j (by omega) hocc

theorem stringSearchNaive_spec (hinj : Function.Injective toInt) (hne : pattern ≠ []) (hpattern : 0 ∉ pattern)
    (htext : 0 ∉ text) (tail rest : List UInt8) {left : List UInt8} (hleft : text.drop pos = left)
    (hbefore : ∀ j < pos, ¬ OccursAt text pattern j) :
    Finds text pattern (stringSearchNaive toInt (pattern ++ tail) pattern.length (left ++ 0 :: rest) pos) := by
  induction left generalizing pos with
  | nil =>
    refine ⟨none, if_neg (by simp), ?_⟩
    intro j hocc
    have hle := hocc.add_length_le hne
    have hpos := List.length_pos_iff.mpr hne
    have hend := List.drop_eq_nil_iff.mp hleft
    exact hbefore j (by omega) hocc
  | cons c left ih =>
    have hc : c ≠ 0 := by
      rintro rfl
      exact htext (List.mem_of_mem_drop (hleft ▸ List.mem_cons_self))
    obtain ⟨diff, hdiff, hiff⟩ := stringCompare_spec hinj (c :: left) tail rest hpattern
    rw [List.cons_append] at hdiff
    rw [List.cons_append, stringSearchNaive, if_pos hc, hdiff, Option.bind_some]
    have hocc : OccursAt text pattern pos ↔ diff = 0 := by rw [hiff, OccursAt, hleft]
    by_cases hzero : diff = 0
    · rw [if_pos hzero]
      exact ⟨some pos, rfl, hocc.mpr hzero, hbefore⟩
    · rw [if_neg hzero]
      apply ih
      · rw [← List.tail_drop, hleft, List.tail_cons]
      · intro j hj hj'
        obtain hlt | rfl := Nat.lt_succ_iff_lt_or_eq.mp hj
        · exact hbefore j hlt hj'
        · exact hzero (hocc.mp hj')

end Naive

section Horspool

variable {toInt : UInt8 → Int} {pattern text : List UInt8} {table : List Nat} {o : Nat} {c : UInt8}

/-- The entries after the elements of `done`. -/
def Filled (patternLen : Nat) (done : List UInt8) (table : List Nat) : Prop :=
  table.length = tableSize ∧
    ∀ c : UInt8, c.toNat < tableSize → table[c.toNat]? = some (patternLen - done.length + done.reverse.idxOf c)

theorem Filled.set {patternLen : Nat} {done : List UInt8} (h : Filled patternLen done table)
    (hlen : done.length < patternLen) (c : UInt8) :
    Filled patternLen (done ++ [c]) (table.set c.toNat (patternLen - done.length - 1)) := by
  obtain ⟨hsize, hentry⟩ := h
  refine ⟨by rw [List.length_set, hsize], ?_⟩
  intro b hb
  rw [List.length_append, List.length_singleton, List.reverse_append, List.reverse_singleton, List.singleton_append]
  by_cases hbc : c = b
  · rw [hbc, List.getElem?_set_self (by omega), List.idxOf_cons_self]
    congr 1
  · have hne : c.toNat ≠ b.toNat := fun h => hbc (UInt8.toNat_inj.mp h)
    rw [List.getElem?_set_ne hne, hentry b hb, List.idxOf_cons_ne _ hbc]
    congr 1
    omega

theorem fillTable_spec {patternLen : Nat} {done left : List UInt8} (h : Filled patternLen done table)
    (hlen : done.length + left.length < patternLen) (hleft : ∀ c ∈ left, c.toNat < tableSize) :
    ∃ table', fillTable patternLen left done.length table = some table' ∧ Filled patternLen (done ++ left) table' := by
  induction left generalizing done table with
  | nil => exact ⟨table, rfl, by rwa [List.append_nil]⟩
  | cons c left ih =>
    rw [List.length_cons] at hlen
    have hc := hleft c List.mem_cons_self
    have hset := h.set (by omega) c
    obtain ⟨table', htable, hfilled⟩ := ih hset (by rw [List.length_append, List.length_singleton]; omega)
      (fun b hb => hleft b (List.mem_cons_of_mem c hb))
    rw [List.length_append, List.length_singleton] at htable
    refine ⟨table', ?_, ?_⟩
    · rw [fillTable, if_pos (by rw [h.1]; exact hc), htable]
    · rw [List.append_assoc, List.singleton_append] at hfilled
      exact hfilled

theorem fillTable_none {patternLen i : Nat} {left : List UInt8} (hsize : table.length = tableSize)
    (hleft : ¬ ∀ c ∈ left, c.toNat < tableSize) : fillTable patternLen left i table = none := by
  induction left generalizing table i with
  | nil => exact absurd (List.forall_mem_nil _) hleft
  | cons c left ih =>
    rw [fillTable, hsize]
    by_cases hc : c.toNat < tableSize
    · rw [if_pos hc]
      apply ih (by rw [List.length_set, hsize])
      intro hall
      exact hleft (List.forall_mem_cons.mpr ⟨hc, hall⟩)
    · exact if_neg hc

/-- The table that the search is run with. -/
def IsTable (pattern : List UInt8) (table : List Nat) : Prop :=
  table.length = tableSize ∧ ∀ c : UInt8, c.toNat < tableSize → table[c.toNat]? = some (skip pattern c)

theorem Filled.isTable (hne : pattern ≠ []) (h : Filled pattern.length pattern.dropLast table) : IsTable pattern table := by
  have hpos := List.length_pos_iff.mpr hne
  refine ⟨h.1, fun c hc => ?_⟩
  rw [h.2 c hc, List.length_dropLast, skip]
  congr 1
  omega

theorem filled_replicate (patternLen : Nat) : Filled patternLen [] (List.replicate tableSize patternLen) := by
  refine ⟨List.length_replicate, fun c hc => ?_⟩
  rw [List.getElem?_replicate_of_lt hc]
  rfl

/-- The loop on a string that stands at the start of the memory. -/
def loopOn (toInt : UInt8 → Int) (text pattern : List UInt8) (table : List Nat) (tail rest : List UInt8) (o : Nat) :
    Option (Option Nat) :=
  horspoolLoop toInt (text ++ rest) text.length (pattern ++ tail) pattern.length table o

variable {tail rest : List UInt8}

theorem compare_at (hinj : Function.Injective toInt) (hfits : o + pattern.length ≤ text.length) :
    ∃ diff, memoryCompare toInt ((text ++ rest).drop o) (pattern ++ tail) pattern.length = some diff ∧
      (diff = 0 ↔ OccursAt text pattern o) := by
  have hle : pattern.length ≤ (text.drop o).length := by
    rw [List.length_drop]
    omega
  obtain ⟨diff, hdiff, hiff⟩ := memoryCompare_spec hinj ((text ++ rest).drop o) pattern tail
    (by rw [List.length_drop, List.length_append]; omega)
  refine ⟨diff, hdiff, hiff.trans ?_⟩
  rw [List.drop_append_of_le_length (by omega), OccursAt]
  constructor
  · intro h
    exact List.prefix_of_prefix_length_le h (List.prefix_append _ _) hle
  · intro h
    exact h.trans (List.prefix_append _ _)

theorem loopOn_end (hle : o ≤ text.length) (hend : text.length < o + pattern.length) :
    loopOn toInt text pattern table tail rest o = some none := by
  rw [loopOn, horspoolLoop, dif_neg (by omega), if_neg (by omega)]

theorem loopOn_occurs (hinj : Function.Injective toInt) (hne : pattern ≠ []) (hocc : OccursAt text pattern o) :
    loopOn toInt text pattern table tail rest o = some (some o) := by
  have hfits := hocc.add_length_le hne
  obtain ⟨diff, hdiff, hiff⟩ : ∃ diff, memoryCompare toInt ((text ++ rest).drop o) (pattern ++ tail) pattern.length =
      some diff ∧ (diff = 0 ↔ OccursAt text pattern o) := compare_at hinj hfits
  rw [loopOn, horspoolLoop, dif_neg (by omega), if_pos (by omega), hdiff, Option.bind_some, if_pos (hiff.mpr hocc)]

theorem loopOn_fails (hinj : Function.Injective toInt) (hne : pattern ≠ []) (h : FailsAt text pattern o c) :
    loopOn toInt text pattern table tail rest o =
      (table[c.toNat]?).bind fun step =>
        if 0 < step then loopOn toInt text pattern table tail rest (o + step) else none := by
  have hfits := h.fits
  have hpos := List.length_pos_iff.mpr hne
  obtain ⟨diff, hdiff, hiff⟩ : ∃ diff, memoryCompare toInt ((text ++ rest).drop o) (pattern ++ tail) pattern.length =
      some diff ∧ (diff = 0 ↔ OccursAt text pattern o) := compare_at hinj hfits
  have hlast : (text ++ rest)[o + pattern.length - 1]? = some c := by
    rw [List.getElem?_append_left (by omega), h.last]
  rw [loopOn, horspoolLoop, dif_neg (by omega), if_pos (by omega), hdiff, Option.bind_some,
    if_neg fun hz => h.fails (hiff.mp hz), hlast, Option.bind_some]
  rfl

theorem loopOn_skip (hinj : Function.Injective toInt) (hne : pattern ≠ []) (htable : IsTable pattern table)
    (h : FailsAt text pattern o c) (hc : c.toNat < tableSize) :
    loopOn toInt text pattern table tail rest o =
      loopOn toInt text pattern table tail rest (o + skip pattern c) := by
  rw [loopOn_fails hinj hne h, htable.2 c hc, Option.bind_some, if_pos (skip_pos pattern c)]

/-- An element without an entry leads to a read past the table. -/
theorem loopOn_out (hinj : Function.Injective toInt) (hne : pattern ≠ []) (htable : IsTable pattern table)
    (h : FailsAt text pattern o c) (hc : ¬ c.toNat < tableSize) : loopOn toInt text pattern table tail rest o = none := by
  rw [loopOn_fails hinj hne h, List.getElem?_eq_none (by rw [htable.1]; omega)]
  rfl

/-- While no read is past the table, the loop gets to every position that is tried. -/
theorem loopOn_tried (hinj : Function.Injective toInt) (hne : pattern ≠ []) (htable : IsTable pattern table)
    (hsome : loopOn toInt text pattern table tail rest 0 ≠ none) (h : Tried text pattern o) :
    loopOn toInt text pattern table tail rest 0 = loopOn toInt text pattern table tail rest o := by
  induction h with
  | start => rfl
  | @skip o c htried hfails ih =>
    have hc : c.toNat < tableSize := by
      by_contra hc
      exact hsome (ih.trans (loopOn_out hinj hne htable hfails hc))
    rw [ih, loopOn_skip hinj hne htable hfails hc]

/-- Where every element that is met has an entry, the loop finds the first occurrence. -/
theorem loopOn_finds (hinj : Function.Injective toInt) (hne : pattern ≠ []) (htable : IsTable pattern table)
    (hholds : ∀ o c, Tried text pattern o → FailsAt text pattern o c → c.toNat < tableSize) (h : Tried text pattern o) :
    Finds text pattern (loopOn toInt text pattern table tail rest o) := by
  induction hleft : text.length - o using Nat.strongRecOn generalizing o with
  | ind left ih =>
    have hle := h.le hne
    have hpos := List.length_pos_iff.mpr hne
    by_cases hend : text.length < o + pattern.length
    · exact ⟨none, loopOn_end hle hend, h.isFirst_of_end hne hend⟩
    by_cases hocc : OccursAt text pattern o
    · exact ⟨some o, loopOn_occurs hinj hne hocc, h.isFirst_of_occursAt hne hocc⟩
    obtain ⟨c, hc⟩ : ∃ c, text[o + pattern.length - 1]? = some c := ⟨_, List.getElem?_eq_getElem (by omega)⟩
    have hfails : FailsAt text pattern o c := ⟨by omega, hocc, hc⟩
    have hskip := skip_pos pattern c
    rw [loopOn_skip hinj hne htable hfails (hholds o c h hfails)]
    exact ih (text.length - (o + skip pattern c)) (by omega) (.skip h hfails) rfl

/-- The search with a table is right exactly when the table has the entries that it is indexed with. -/
theorem searchHorspool_iff (hinj : Function.Injective toInt) (hne : pattern ≠ []) (tail rest : List UInt8) :
    Finds text pattern (searchHorspool toInt (text ++ rest) text.length (pattern ++ tail) pattern.length) ↔
      TableHolds text pattern := by
  have hpos := List.length_pos_iff.mpr hne
  have htake : (pattern ++ tail).take (pattern.length - 1) = pattern.dropLast := by
    rw [List.take_append_of_le_length (by omega), List.dropLast_eq_take]
  rw [searchHorspool, htake]
  by_cases hpattern : ∀ c ∈ pattern.dropLast, c.toNat < tableSize
  · obtain ⟨table, hfill, hfilled⟩ := fillTable_spec (filled_replicate pattern.length)
      (by rw [List.length_dropLast, List.length_nil]; omega) hpattern
    have htable := Filled.isTable hne hfilled
    rw [List.length_nil] at hfill
    rw [hfill, Option.bind_some]
    constructor
    · rintro ⟨r, hr, -⟩
      refine ⟨hpattern, fun o c htried hfails => ?_⟩
      have hrun : loopOn toInt text pattern table tail rest 0 = some r := hr
      by_contra hc
      have hnone : loopOn toInt text pattern table tail rest o = none := loopOn_out hinj hne htable hfails hc
      rw [← loopOn_tried hinj hne htable (by simp [hrun]) htried, hrun] at hnone
      exact absurd hnone (by simp)
    · intro hholds
      exact loopOn_finds hinj hne htable hholds.inText .start
  · rw [fillTable_none List.length_replicate hpattern]
    exact iff_of_false (by simp [Finds]) fun hholds => hpattern hholds.inPattern

end Horspool

/-- The text of a string, before the terminator. -/
abbrev Characters := {text : List UInt8 // 0 ∉ text}

theorem isFirst_nil (text : List UInt8) : IsFirst text [] (some 0) :=
  ⟨List.nil_prefix, fun j hj => absurd hj (Nat.not_lt_zero j)⟩

theorem memorySearch_iff (text pattern : List UInt8) :
    Finds text pattern (memorySearch text text.length pattern pattern.length) ↔
      pattern.length < 8 ∨ TableHolds text pattern := by
  obtain rfl | hne := eq_or_ne pattern []
  · exact iff_of_true ⟨some 0, rfl, isFirst_nil text⟩ (Or.inl (by decide))
  have hpos := List.length_pos_iff.mpr hne
  rw [memorySearch, if_neg (by omega)]
  by_cases hshort : pattern.length < 8
  · rw [if_pos hshort, memorySearchNaive, if_neg (by omega)]
    apply iff_of_true _ (Or.inl hshort)
    exact memoryNaiveLoop_spec hne (Nat.zero_add _) fun j hj => absurd hj (Nat.not_lt_zero j)
  · have hiff : Finds text pattern (searchHorspool byteToInt (text ++ []) text.length (pattern ++ []) pattern.length) ↔
        TableHolds text pattern := searchHorspool_iff byteToInt_injective hne [] []
    rw [List.append_nil, List.append_nil] at hiff
    rw [if_neg hshort, memorySearchHorspool, hiff, or_iff_right hshort]

theorem stringSearch_iff (charSigned : Bool) (text pattern : Characters) (rest tail : List UInt8) :
    Finds text pattern (stringSearch charSigned (text ++ 0 :: rest) (pattern ++ 0 :: tail)) ↔
      pattern.val.length < 8 ∨ TableHolds text pattern := by
  obtain ⟨text, htext⟩ := text
  obtain ⟨pattern, hpattern⟩ := pattern
  have hinj := charToInt_injective charSigned
  dsimp only
  rw [stringSearch, stringLength_append hpattern, Option.bind_some]
  obtain rfl | hne := eq_or_ne pattern []
  · exact iff_of_true ⟨some 0, rfl, isFirst_nil text⟩ (Or.inl (by decide))
  have hpos := List.length_pos_iff.mpr hne
  rw [if_neg (by omega)]
  by_cases hshort : pattern.length < 8
  · rw [if_pos hshort]
    apply iff_of_true _ (Or.inl hshort)
    exact stringSearchNaive_spec hinj hne hpattern htext _ rest List.drop_zero fun j hj => absurd hj (Nat.not_lt_zero j)
  · rw [if_neg hshort, stringSearchHorspool, stringLength_append htext, Option.bind_some, searchHorspool_iff hinj hne,
      or_iff_right hshort]

/-- Both searches are right exactly for patterns that are searched for without a table, and for those whose elements and
the elements of the text that are met have an entry in it. -/
theorem search_iff (charSigned : Bool) :
    (∀ text pattern : List UInt8, Finds text pattern (memorySearch text text.length pattern pattern.length) ↔
      pattern.length < 8 ∨ TableHolds text pattern) ∧
    ∀ (text pattern : Characters) (rest tail : List UInt8),
      Finds text pattern (stringSearch charSigned (text ++ 0 :: rest) (pattern ++ 0 :: tail)) ↔
        pattern.val.length < 8 ∨ TableHolds text pattern :=
  ⟨memorySearch_iff, stringSearch_iff charSigned⟩

/-- The last byte of the text is above 127, and the pattern does not stand there. -/
theorem search_high_byte :
    ¬ ∀ text pattern : List UInt8, Finds text pattern (memorySearch text text.length pattern pattern.length) := by
  intro h
  have hfinds := h [1, 1, 1, 1, 1, 1, 1, 128] [1, 1, 1, 1, 1, 1, 1, 1]
  rw [memorySearch_iff] at hfinds
  obtain hshort | hholds := hfinds
  · exact absurd hshort (by decide)
  · have hfails : FailsAt [1, 1, 1, 1, 1, 1, 1, 128] ([1, 1, 1, 1, 1, 1, 1, 1] : List UInt8) 0 128 :=
      ⟨by decide, by rw [OccursAt]; decide, by decide⟩
    exact absurd (hholds.inText 0 128 .start hfails) (by decide)

end XviOs.StringImpl
