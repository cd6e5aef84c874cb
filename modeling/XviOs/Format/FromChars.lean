import Mathlib.Data.List.TakeWhile
import Mathlib.Tactic
import XviOs.Format.CharConvRoundTrip

namespace XviOs.Format

open Library.LittleEndian Library.Slices

variable {I J : IntType} {base : Base} {mem : Bytes} {first last : Nat} {r : FromCharsResult}

def isUpper (c : UInt8) : Bool := 'A'.toUInt8 ≤ c && c ≤ 'Z'.toUInt8

def isLower (c : UInt8) : Bool := 'a'.toUInt8 ≤ c && c ≤ 'z'.toUInt8

/-- What a digit stands for, a letter in either case. -/
def digitValue (c : UInt8) : Option Nat :=
  if '0'.toUInt8 ≤ c ∧ c ≤ '9'.toUInt8 then some (c.toNat - '0'.toNat)
  else if isLower c then some (c.toNat - 'a'.toNat + 10)
  else if isUpper c then some (c.toNat - 'A'.toNat + 10)
  else none

def isDigit (base : Base) (c : UInt8) : Bool := (digitValue c).any (· < base.val)

def digits (chars : List UInt8) : List Nat := chars.map fun c => (digitValue c).getD 0

/-- The number that a run of digits stands for. -/
def number (base : Base) (chars : List UInt8) : Nat := horner base.val (digits chars) 0

/-- The longest run of the characters that pass a test. -/
def runOf (p : UInt8 → Bool) (mem : Bytes) (first last : Nat) : List UInt8 :=
  (slice mem first (last - first)).takeWhile p

def HasSign (I : IntType) (mem : Bytes) (first last : Nat) : Prop := first < last ∧ I.signed ∧ mem first = minus

instance : Decidable (HasSign I mem first last) := inferInstanceAs (Decidable (_ ∧ _))

/-- Where the digits start. -/
def digitsAt (I : IntType) (mem : Bytes) (first last : Nat) : Nat :=
  if HasSign I mem first last then first + 1 else first

def signedNumber (I : IntType) (base : Base) (mem : Bytes) (first last : Nat) (run : List UInt8) : Int :=
  if HasSign I mem first last then -number base run else number base run

/-- The type that the digits are read in. -/
def digitType (I : IntType) (mem : Bytes) (first last : Nat) : IntType :=
  if HasSign I mem first last then I.makeUnsigned else I

/-- The digits of the source text. -/
def digitRun (I : IntType) (base : Base) (mem : Bytes) (first last : Nat) : List UInt8 :=
  runOf (isDigit base) mem (digitsAt I mem first last) last

/-- The result for a text whose run of digits is known. -/
structure ParsesRight (I : IntType) (base : Base) (mem : Bytes) (first last : Nat) (r : FromCharsResult) : Prop where
  invalid : r.ec = .invalidArgument ↔ digitRun I base mem first last = []
  range : r.ec = .resultOutOfRange ↔ digitRun I base mem first last ≠ [] ∧
    ¬ I.Holds (signedNumber I base mem first last (digitRun I base mem first last))
  stored : digitRun I base mem first last ≠ [] →
    I.Holds (signedNumber I base mem first last (digitRun I base mem first last)) →
    r.ec = .ok ∧ r.value = some (signedNumber I base mem first last (digitRun I base mem first last))
  ptr : digitRun I base mem first last ≠ [] →
    r.ptr = digitsAt I mem first last + (digitRun I base mem first last).length
  unchanged : r.ec ≠ .ok → r.value = none

/-- The digits that the table has. -/
def inTable (base : Base) (c : UInt8) : Bool := isDigit base c && !isUpper c

theorem fromCharsTable_eq : fromCharsTable = (List.range 256).map fun n =>
    if isUpper (UInt8.ofNat n) then -1 else ((digitValue (UInt8.ofNat n)).map Int.ofNat).getD (-1) := by
  decide +kernel

theorem readNext_eq (h : first < last) :
    readNext I base mem first last = if inTable base (mem first) then (digitValue (mem first)).map Int.ofNat else none := by
  have hbase := base.le_36
  have hmax := I.le_max
  have hmin := I.min_nonpos
  have htable : fromCharsTable.getD (mem first).toNat (-1) =
      if isUpper (mem first) then -1 else ((digitValue (mem first)).map Int.ofNat).getD (-1) := by
    have hlt : (mem first).toNat < 256 := (mem first).toNat_lt
    rw [fromCharsTable_eq, List.getD_eq_getElem _ _ (by simpa using hlt), List.getElem_map, List.getElem_range,
      UInt8.ofNat_toNat]
  rw [readNext, if_neg (by omega), htable, inTable, isDigit]
  by_cases hupper : isUpper (mem first)
  · simp [hupper]
  · cases hvalue : digitValue (mem first) with
    | none => simp [hupper]
    | some d =>
      by_cases hd : d < base.val
      · have hcast : I.cast d = d := IntType.cast_of_holds (by constructor <;> omega)
        simp [hupper, hd, hcast]
      · simp [hupper, hd]

theorem runOf_end (p : UInt8 → Bool) (h : last ≤ first) : runOf p mem first last = [] := by
  rw [runOf, Nat.sub_eq_zero_of_le h]
  rfl

theorem runOf_next (p : UInt8 → Bool) (h : first < last) :
    runOf p mem first last = if p (mem first) then mem first :: runOf p mem (first + 1) last else [] := by
  obtain ⟨n, hn⟩ : ∃ n, last - first = n + 1 := ⟨last - first - 1, by omega⟩
  have hrest : last - (first + 1) = n := by omega
  rw [runOf, runOf, hn, hrest, slice_cons, List.takeWhile_cons]

theorem horner_append (b : Nat) (ds es : List Nat) (v : Nat) : horner b (ds ++ es) v = horner b es (horner b ds v) :=
  List.foldl_append

theorem readLoop_room {d w : Nat} (hd : d < base.val) (hnext : readNext I base mem first last = some (d : Int))
    (hmax : I.max < (w * base.val + d : Nat)) :
    readLoop I base mem first last w = some ⟨first + 1, .resultOutOfRange, none⟩ := by
  rw [readLoop]
  split
  · next hnone => rw [hnext] at hnone; exact absurd hnone (by simp)
  · next i hsome =>
    obtain rfl : (d : Int) = i := Option.some_inj.mp (hnext.symm.trans hsome)
    rw [cast_base, if_pos ((room_iff hd).mpr hmax)]

theorem readLoop_stop {w : Int} (hnext : readNext I base mem first last = none) :
    readLoop I base mem first last w = some ⟨first, .ok, some w⟩ := by
  rw [readLoop]
  split
  · rfl
  · next i hsome => rw [hnext] at hsome; exact absurd hsome (by simp)

/-- What a loop over a run of digits comes to: either all of them fit, or there is a first that does not. -/
def LoopResult (I : IntType) (base : Base) (first : Nat) (run : List UInt8) (v : Nat) (s : Option FromCharsResult) :
    Prop :=
  (horner base.val (digits run) v ≤ I.max ∧
    s = some ⟨first + run.length, .ok, some (horner base.val (digits run) v : Nat)⟩) ∨
  ∃ i < run.length, horner base.val (digits (run.take i)) v ≤ I.max ∧
    I.max < horner base.val (digits (run.take (i + 1))) v ∧ s = some ⟨first + i + 1, .resultOutOfRange, none⟩

theorem loopResult_nil {v : Nat} (hv : v ≤ I.max) : LoopResult I base first [] v (some ⟨first, .ok, some (v : Int)⟩) :=
  .inl ⟨hv, rfl⟩

theorem loopResult_cons {c : UInt8} {run : List UInt8} {d v : Nat} {s : Option FromCharsResult}
    (hd : digitValue c = some d) (h : LoopResult I base (first + 1) run (v * base.val + d) s) :
    LoopResult I base first (c :: run) v s := by
  have hdigits (l : List UInt8) : horner base.val (digits (c :: l)) v = horner base.val (digits l) (v * base.val + d) := by
    rw [digits, List.map_cons, hd]
    rfl
  obtain ⟨hmax, hs⟩ | ⟨i, hi, hmax, hover, hs⟩ := h
  · refine .inl ⟨?_, ?_⟩
    · rw [hdigits]
      exact hmax
    · rw [hs, hdigits, List.length_cons, Nat.add_right_comm, Nat.add_assoc]
  · refine .inr ⟨i + 1, Nat.succ_lt_succ hi, ?_, ?_, ?_⟩
    · rw [List.take_succ_cons, hdigits]
      exact hmax
    · rw [List.take_succ_cons, hdigits]
      exact hover
    · rw [hs, Nat.add_right_comm first 1 i, Nat.add_assoc first i 1]

theorem readLoop_run (v : Nat) (hv : v ≤ I.max) :
    LoopResult I base first (runOf (inTable base) mem first last) v (readLoop I base mem first last v) := by
  induction hn : last - first generalizing first v with
  | zero =>
    have hle : last ≤ first := Nat.le_of_sub_eq_zero hn
    rw [runOf_end _ hle, readLoop_stop (if_pos hle)]
    exact loopResult_nil hv
  | succ n ih =>
    have hlt : first < last := by omega
    have hnext : readNext I base mem first last = _ := readNext_eq hlt
    rw [runOf_next _ hlt]
    by_cases hin : inTable base (mem first)
    · obtain ⟨d, hvalue, hd⟩ : ∃ d, digitValue (mem first) = some d ∧ d < base.val := by
        rw [inTable, isDigit, Bool.and_eq_true, Option.any_eq_true] at hin
        obtain ⟨⟨d, hvalue, hd⟩, -⟩ := hin
        exact ⟨d, hvalue, of_decide_eq_true hd⟩
      rw [if_pos hin, hvalue] at hnext
      rw [if_pos hin]
      by_cases hmax : (v * base.val + d : Nat) ≤ I.max
      · rw [readLoop_next hd hnext hmax]
        exact loopResult_cons hvalue (ih _ hmax (by omega))
      · refine .inr ⟨0, Nat.succ_pos _, hv, ?_, readLoop_room hd hnext (not_le.mp hmax)⟩
        rw [List.take_succ_cons, List.take_zero, digits, List.map_singleton, hvalue]
        exact not_le.mp hmax
    · rw [if_neg hin] at hnext
      rw [if_neg hin, readLoop_stop hnext]
      exact loopResult_nil hv

theorem number_take_le (run : List UInt8) (i : Nat) : number base (run.take i) ≤ number base run := by
  calc number base (run.take i)
      ≤ horner base.val (digits (run.drop i)) (number base (run.take i)) := le_horner (Nat.le_of_lt base.two_le) _ _
    _ = number base (run.take i ++ run.drop i) := by
      rw [number, number, digits, digits, digits, List.map_append, horner_append]
    _ = number base run := by rw [List.take_append_drop]

/-- What the whole call comes to, by the digits that the table has. -/
inductive CallResult (I : IntType) (base : Base) (mem : Bytes) (first last : Nat) (run : List UInt8) :
    Option FromCharsResult → Prop where
  | invalid (p : Nat) (hrun : run = []) : CallResult I base mem first last run (some ⟨p, .invalidArgument, none⟩)
  | range (hrun : run ≠ []) (hmax : number base run ≤ (digitType I mem first last).max)
      (hover : ¬ I.Holds (signedNumber I base mem first last run)) :
      CallResult I base mem first last run
        (some ⟨digitsAt I mem first last + run.length, .resultOutOfRange, none⟩)
  | stored (hrun : run ≠ []) (hmax : number base run ≤ (digitType I mem first last).max)
      (hholds : I.Holds (signedNumber I base mem first last run)) :
      CallResult I base mem first last run
        (some ⟨digitsAt I mem first last + run.length, .ok, some (signedNumber I base mem first last run)⟩)
  | overflow (i : Nat) (hi : i < run.length) (hmax : number base (run.take i) ≤ (digitType I mem first last).max)
      (hover : (digitType I mem first last).max < number base (run.take (i + 1))) :
      CallResult I base mem first last run (some ⟨digitsAt I mem first last + i + 1, .resultOutOfRange, none⟩)

theorem zero_le_max (I : IntType) : ((0 : Nat) : Int) ≤ I.max := by
  have h := I.le_max
  push_cast
  omega

theorem fromCharsUnsigned_run (I : IntType) (base : Base) (mem : Bytes) (first last : Nat) :
    (runOf (inTable base) mem first last = [] ∧
      fromCharsUnsigned I base mem first last = some ⟨first, .invalidArgument, none⟩) ∨
    (runOf (inTable base) mem first last ≠ [] ∧
      LoopResult I base first (runOf (inTable base) mem first last) 0 (fromCharsUnsigned I base mem first last)) := by
  have hloop : LoopResult I base first (runOf (inTable base) mem first last) 0 (readLoop I base mem first last 0) :=
    readLoop_run 0 (zero_le_max I)
  generalize runOf (inTable base) mem first last = run at hloop ⊢
  obtain ⟨hmax, hs⟩ | ⟨i, hi, hmax, hover, hs⟩ := hloop
  · have hs' : readLoop I base mem first last 0 = _ := hs
    cases run with
    | nil =>
      refine .inl ⟨rfl, ?_⟩
      rw [fromCharsUnsigned, hs', Option.map_some]
      exact congrArg some (if_pos ⟨rfl, rfl⟩)
    | cons c run =>
      refine .inr ⟨List.cons_ne_nil c run, .inl ⟨hmax, ?_⟩⟩
      rw [fromCharsUnsigned, hs', Option.map_some, if_neg]
      rintro ⟨-, hptr⟩
      dsimp only [List.length_cons] at hptr
      omega
  · have hs' : readLoop I base mem first last 0 = _ := hs
    refine .inr ⟨?_, .inr ⟨i, hi, hmax, hover, ?_⟩⟩
    · rintro rfl
      exact absurd hi (Nat.not_lt_zero i)
    · rw [fromCharsUnsigned, hs', Option.map_some, if_neg fun h => Errc.noConfusion h.1]

theorem holds_neg_iff (hs : I.signed) (u : Nat) : I.Holds (-(u : Int)) ↔ (u : Int) ≤ 2 ^ (I.width - 1) := by
  have hle := I.le_two_pow_width
  rw [IntType.Holds, IntType.min, IntType.max, if_pos hs, if_pos hs]
  omega

theorem holds_natCast_iff (u : Nat) : I.Holds (u : Int) ↔ (u : Int) ≤ I.max := by
  have hmin := I.min_nonpos
  rw [IntType.Holds]
  omega

/-- The sign of what the negated unsigned value is read as tells whether it is one of the type. -/
theorem bmod_pos_iff (hs : I.signed) {u : Nat} (hu : (u : Int) < 2 ^ I.width) :
    0 < (-(u : Int)).bmod (2 ^ I.width) ↔ ¬ I.Holds (-(u : Int)) := by
  have hpow := I.two_pow_width
  by_cases hholds : I.Holds (-(u : Int))
  · have hself := IntType.cast_of_holds hholds
    rw [IntType.cast, if_pos hs] at hself
    rw [hself]
    exact iff_of_false (by omega) (not_not.mpr hholds)
  · refine iff_of_true ?_ hholds
    rw [holds_neg_iff hs] at hholds
    have hwrap : (-(u : Int)).bmod (2 ^ I.width) = 2 ^ I.width - u := by
      rw [← Int.add_bmod_right, Int.bmod_eq_of_le_mul_two]
      · push_cast
        omega
      · push_cast
        omega
      · push_cast
        omega
    omega

/-- The digits that the code reads. -/
def tableRun (I : IntType) (base : Base) (mem : Bytes) (first last : Nat) : List UInt8 :=
  runOf (inTable base) mem (digitsAt I mem first last) last

theorem fromChars_result (I : IntType) (base : Base) (mem : Bytes) (first last : Nat) :
    CallResult I base mem first last (tableRun I base mem first last) (fromChars I base mem first last) := by
  by_cases hsign : HasSign I mem first last
  · have hat : digitsAt I mem first last = first + 1 := if_pos hsign
    have htype : digitType I mem first last = I.makeUnsigned := if_pos hsign
    have hnumber (run : List UInt8) : signedNumber I base mem first last run = -number base run := if_pos hsign
    have hcall : fromChars I base mem first last = _ := if_pos hsign
    have hrun := fromCharsUnsigned_run I.makeUnsigned base mem (first + 1) last
    rw [hcall, tableRun, hat]
    generalize runOf (inTable base) mem (first + 1) last = run at hrun ⊢
    obtain ⟨hnil, hs⟩ | ⟨hne, ⟨hmax, hs⟩ | ⟨i, hi, hmax, hover, hs⟩⟩ := hrun
    · rw [hs]
      exact .invalid first hnil
    · have hlt : (number base run : Int) < 2 ^ I.width := by
        have h : I.makeUnsigned.max = 2 ^ I.width - 1 := rfl
        rw [h] at hmax
        exact Int.lt_of_le_sub_one hmax
      obtain ⟨m, hm, hcast⟩ := cast_negated_unsigned hsign.2.1 (Int.natCast_nonneg (number base run)) hlt
      have hpos := bmod_pos_iff hsign.2.1 hlt
      rw [hs, Option.bind_some]
      dsimp only
      rw [← number, hm, Option.map_some, hcast]
      by_cases hholds : I.Holds (-(number base run : Int))
      · have hself := IntType.cast_of_holds hholds
        rw [IntType.cast, if_pos hsign.2.1] at hself
        rw [if_neg fun h => hpos.mp h hholds, hself, ← hnumber, ← hat]
        exact .stored hne (htype ▸ hmax) (hnumber run ▸ hholds)
      · rw [if_pos (hpos.mpr hholds), ← hat]
        exact .range hne (htype ▸ hmax) (hnumber run ▸ hholds)
    · rw [hs, Option.bind_some]
      dsimp only
      rw [if_neg (by decide), ← hat]
      exact .overflow i hi (htype ▸ hmax) (htype ▸ hover)
  · have hat : digitsAt I mem first last = first := if_neg hsign
    have htype : digitType I mem first last = I := if_neg hsign
    have hnumber (run : List UInt8) : signedNumber I base mem first last run = number base run := if_neg hsign
    have hcall : fromChars I base mem first last = _ := if_neg hsign
    have hrun := fromCharsUnsigned_run I base mem first last
    rw [hcall, tableRun, hat]
    generalize runOf (inTable base) mem first last = run at hrun ⊢
    obtain ⟨hnil, hs⟩ | ⟨hne, ⟨hmax, hs⟩ | ⟨i, hi, hmax, hover, hs⟩⟩ := hrun
    · rw [hs]
      exact .invalid first hnil
    · have hholds : I.Holds (signedNumber I base mem first last run) := by
        rw [hnumber]
        exact (holds_natCast_iff _).mpr hmax
      rw [← htype] at hmax
      have hstored := CallResult.stored hne hmax hholds
      rw [hnumber, hat] at hstored
      rw [hs]
      exact hstored
    · rw [← htype] at hmax hover
      have hoverflow := CallResult.overflow i hi hmax hover
      rw [hat] at hoverflow
      rw [hs]
      exact hoverflow

/-- The digits that are read end where an upper case letter is. -/
theorem tableRun_eq :
    tableRun I base mem first last = (digitRun I base mem first last).takeWhile fun c => !isUpper c := by
  rw [digitRun, runOf, List.takeWhile_takeWhile, tableRun, runOf]
  congr 1
  funext c
  rw [inTable, Bool.decide_and, Bool.decide_coe, Bool.decide_coe, Bool.and_comm]

theorem tableRun_of_lower (h : ∀ c ∈ digitRun I base mem first last, isUpper c = false) :
    tableRun I base mem first last = digitRun I base mem first last := by
  rw [tableRun_eq, List.takeWhile_eq_self_iff]
  intro c hc
  rw [h c hc]
  rfl

theorem length_tableRun_lt (h : ¬ ∀ c ∈ digitRun I base mem first last, isUpper c = false) :
    (tableRun I base mem first last).length < (digitRun I base mem first last).length := by
  rw [tableRun_eq]
  have hprefix := List.takeWhile_prefix (fun c => !isUpper c) (l := digitRun I base mem first last)
  apply lt_of_le_of_ne hprefix.length_le
  intro heq
  apply h
  intro c hc
  have hself := hprefix.eq_of_length heq
  rw [List.takeWhile_eq_self_iff] at hself
  simpa using hself c hc

theorem number_dropLast {run : List UInt8} {m : Int} {i : Nat} (hi : i < run.length)
    (hmax : number base (run.take i) ≤ m) (hover : m < number base (run.take (i + 1))) :
    i + 1 = run.length ↔ number base run.dropLast ≤ m := by
  constructor
  · intro hlen
    rwa [List.dropLast_eq_take, ← hlen, Nat.add_sub_cancel]
  · intro hle
    by_contra hne
    have hshort : (run.dropLast).take (i + 1) = run.take (i + 1) := by
      rw [List.dropLast_eq_take, List.take_take, Nat.min_eq_left (by omega)]
    have hmono : number base (run.dropLast.take (i + 1)) ≤ number base run.dropLast := number_take_le _ _
    rw [hshort] at hmono
    omega

/-- A value of the type is one of the digits' type as well. -/
theorem number_le_of_holds {run : List UInt8} (h : I.Holds (signedNumber I base mem first last run)) :
    number base run ≤ (digitType I mem first last).max := by
  rw [signedNumber] at h
  rw [digitType]
  split at h
  · next hsign =>
    have hmax : I.makeUnsigned.max = 2 ^ I.width - 1 := rfl
    have hpow := I.two_pow_width
    have hle := I.le_two_pow_width
    rw [holds_neg_iff hsign.2.1] at h
    rw [if_pos hsign, hmax]
    omega
  · next hsign =>
    rw [if_neg hsign]
    exact h.2

theorem number_dropLast_le (run : List UInt8) : number base run.dropLast ≤ number base run := by
  rw [List.dropLast_eq_take]
  exact number_take_le run _

/-- A text with an upper case letter for a digit is not read to the end of its digits. -/
theorem lower_of_parsesRight (hright : ParsesRight I base mem first last r)
    (hresult : CallResult I base mem first last (tableRun I base mem first last) (some r)) :
    ∀ c ∈ digitRun I base mem first last, isUpper c = false := by
  by_contra hupper
  have hlt := length_tableRun_lt hupper
  have hne : digitRun I base mem first last ≠ [] := List.ne_nil_of_length_pos (by omega)
  have hptr := hright.ptr hne
  cases hresult with
  | invalid p hrun => exact hne (hright.invalid.mp rfl)
  | range hrun hmax hover =>
    dsimp only at hptr
    omega
  | stored hrun hmax hholds =>
    dsimp only at hptr
    omega
  | overflow i hi hmax hover =>
    dsimp only at hptr
    omega

theorem dropLast_le_of_ptr {run : List UInt8} (hptr : run ≠ [] → r.ptr = digitsAt I mem first last + run.length)
    (hresult : CallResult I base mem first last run (some r)) :
    number base run.dropLast ≤ (digitType I mem first last).max := by
  cases hresult with
  | invalid p hrun =>
    rw [hrun]
    exact zero_le_max _
  | range hrun hmax hover => exact le_trans (Nat.cast_le.mpr (number_dropLast_le run)) hmax
  | stored hrun hmax hholds => exact le_trans (Nat.cast_le.mpr (number_dropLast_le run)) hmax
  | overflow i hi hmax hover =>
    have hend := hptr (List.ne_nil_of_length_pos (by omega))
    dsimp only at hend
    exact (number_dropLast hi hmax hover).mp (by omega)

theorem parsesRight_of_result
    (hlast : number base (digitRun I base mem first last).dropLast ≤ (digitType I mem first last).max)
    {s : Option FromCharsResult} (hresult : CallResult I base mem first last (digitRun I base mem first last) s) :
    ∃ r, s = some r ∧ ParsesRight I base mem first last r := by
  cases hresult with
  | invalid p hrun =>
    refine ⟨_, rfl, ⟨iff_of_true rfl hrun, ?_, fun h => absurd hrun h, fun h => absurd hrun h, fun _ => rfl⟩⟩
    exact iff_of_false Errc.noConfusion fun h => h.1 hrun
  | range hrun hmax hover =>
    refine ⟨_, rfl, ⟨iff_of_false Errc.noConfusion hrun, iff_of_true rfl ⟨hrun, hover⟩, ?_, fun _ => rfl, fun _ => rfl⟩⟩
    exact fun _ h => absurd h hover
  | stored hrun hmax hholds =>
    refine ⟨_, rfl, ⟨iff_of_false Errc.noConfusion hrun, ?_, fun _ _ => ⟨rfl, rfl⟩, fun _ => rfl, ?_⟩⟩
    · exact iff_of_false Errc.noConfusion fun h => h.2 hholds
    · exact fun h => absurd rfl h
  | overflow i hi hmax hover =>
    have hne : digitRun I base mem first last ≠ [] := List.ne_nil_of_length_pos (by omega)
    have hend := (number_dropLast hi hmax hover).mpr hlast
    have hnot : ¬ I.Holds (signedNumber I base mem first last (digitRun I base mem first last)) := by
      intro h
      rw [hend, List.take_length] at hover
      exact absurd (number_le_of_holds h) (not_le.mpr hover)
    refine ⟨_, rfl, ⟨iff_of_false Errc.noConfusion hne, iff_of_true rfl ⟨hne, hnot⟩, ?_, ?_, fun _ => rfl⟩⟩
    · exact fun _ h => absurd h hnot
    · intro _
      dsimp only
      omega

/-- The text is read as it should be exactly when no digit is an upper case letter and the last one only can be too
much. -/
theorem fromChars_iff (I : IntType) (base : Base) (mem : Bytes) (first last : Nat) :
    (∃ r, fromChars I base mem first last = some r ∧ ParsesRight I base mem first last r) ↔
      (∀ c ∈ digitRun I base mem first last, isUpper c = false) ∧
      number base (digitRun I base mem first last).dropLast ≤ (digitType I mem first last).max := by
  have hresult := fromChars_result I base mem first last
  constructor
  · rintro ⟨r, hr, hright⟩
    rw [hr] at hresult
    have hlower := lower_of_parsesRight hright hresult
    rw [tableRun_of_lower hlower] at hresult
    exact ⟨hlower, dropLast_le_of_ptr hright.ptr hresult⟩
  · rintro ⟨hlower, hlast⟩
    rw [tableRun_of_lower hlower] at hresult
    exact parsesRight_of_result hlast hresult

/-- The text `F` in base 16. -/
theorem fromChars_upper :
    ¬ ∀ (I : IntType) (base : Base) (mem : Bytes) (first last : Nat),
      ∃ r, fromChars I base mem first last = some r ∧ ParsesRight I base mem first last r := by
  intro h
  obtain ⟨r, hr, hright⟩ := h IntType.int ⟨16, by decide, by decide⟩ (fun _ => 'F'.toUInt8) 0 1
  have hresult := fromChars_result IntType.int ⟨16, by decide, by decide⟩ (fun _ => 'F'.toUInt8) 0 1
  rw [hr] at hresult
  exact absurd (lower_of_parsesRight hright hresult 'F'.toUInt8 (by decide +kernel)) (by decide)

end XviOs.Format
