import Mathlib.Tactic

namespace XviOs.Firmware

abbrev Byte := BitVec 8

/-- `_MP_` -/
def floatingPointerSignature : BitVec 32 := 0x5F504D5F

def sizeofFloatingPointer : Nat := 16

section Search

variable (w : Nat) (memory : Nat → Byte) (base size : Nat)

/-- A byte of the region that is searched. None is an access outside it. -/
def load (p : Nat) : Option Byte := if base ≤ p ∧ p < base + size then some (memory p) else none

/-- The sum of so many bytes. -/
def sumBytes : Nat → Nat → Byte → Option Byte
  | 0, _, sum => some sum
  | n + 1, p, sum => do sumBytes n (p + 1) (sum + (← load memory base size p))

def checkSignature (p : Nat) : Option Bool := do
  let b0 ← load memory base size p
  let b1 ← load memory base size (p + 1)
  let b2 ← load memory base size (p + 2)
  let b3 ← load memory base size (p + 3)
  return b3 ++ b2 ++ b1 ++ b0 = floatingPointerSignature

def checkFields (p : Nat) : Option Bool := do
  if (← load memory base size (p + 8)).toNat * 16 ≠ sizeofFloatingPointer then return false
  let revision ← load memory base size (p + 9)
  if revision ≠ 1 ∧ revision ≠ 4 then return false
  if (← load memory base size (p + 11)).toNat > 7 then return false
  return true

def checkSum (p : Nat) : Option Bool := do
  let length ← load memory base size (p + 8)
  return (← sumBytes memory base size (length.toNat * 16) p 0) = 0

def validate (p : Nat) : Option Bool := do
  if !(← checkSignature memory base size p) then return false
  if !(← checkFields memory base size p) then return false
  checkSum memory base size p

/-- The loop of `searchMemory`. None is also a search that has not ended within so many rounds. -/
def searchLoop : Nat → Nat → Nat → Option (Option Nat)
  | 0, _, _ => none
  | n + 1, p, length =>
    if sizeofFloatingPointer ≤ length then do
      if ← validate memory base size p then return some p
      searchLoop n ((p + 16) % 2 ^ w) (length - 16)
    else some none

/-- The next address that is a multiple of 16, in `w` bits. -/
def alignedAddress : Nat := (base + 15) % 2 ^ w / 16 * 16

def searchMemory (rounds : Nat) : Option (Option Nat) :=
  let diff := (alignedAddress w base + (2 ^ w - base)) % 2 ^ w
  searchLoop w memory base size rounds (alignedAddress w base) ((size + (2 ^ w - diff)) % 2 ^ w)

end Search

/-- The sum of `n` bytes from `p` on. -/
def bytesSum (memory : Nat → Byte) : Nat → Nat → Byte
  | _, 0 => 0
  | p, n + 1 => memory p + bytesSum memory (p + 1) n

/-- What a floating pointer structure has to satisfy. -/
structure IsFloatingPointer (memory : Nat → Byte) (p : Nat) : Prop where
  signature : memory (p + 3) ++ memory (p + 2) ++ memory (p + 1) ++ memory p = floatingPointerSignature
  length : (memory (p + 8)).toNat * 16 = sizeofFloatingPointer
  revision : memory (p + 9) = 1 ∨ memory (p + 9) = 4
  configurationType : (memory (p + 11)).toNat ≤ 7
  checksum : bytesSum memory p 16 = 0

/-- The positions the search is about: aligned, with room for a whole structure. -/
structure Candidate (base size p : Nat) : Prop where
  aligned : 16 ∣ p
  start : base ≤ p
  room : p + sizeofFloatingPointer ≤ base + size

/-- The first number of a kind that is not below `start`, or none. -/
def IsFirstFrom (P : Nat → Prop) (start : Nat) : Option Nat → Prop
  | some p => start ≤ p ∧ P p ∧ ∀ q, start ≤ q → q < p → ¬ P q
  | none => ∀ q, start ≤ q → ¬ P q

/-- The search stays inside the region, ends and finds the first such structure. -/
def SearchRight (w : Nat) (memory : Nat → Byte) (base size : Nat) (Right : Nat → Prop) : Prop :=
  ∃ result rounds, (∀ n, rounds ≤ n → searchMemory w memory base size n = some result) ∧
    IsFirstFrom (fun p => Candidate base size p ∧ Right p) base result

/-- The distance to the next multiple of 16. -/
def padding (base : Nat) : Nat := (16 - base % 16) % 16

section

variable {w : Nat} {memory : Nat → Byte} {base size : Nat}

theorem IsFirstFrom.lower {P : Nat → Prop} {start start' : Nat} {result : Option Nat}
    (h : IsFirstFrom P start result) (hle : start' ≤ start) (hnot : ∀ q, start' ≤ q → q < start → ¬ P q) :
    IsFirstFrom P start' result := by
  cases result with
  | none =>
    intro q hq
    rcases lt_or_ge q start with hlt | hge
    · exact hnot q hq hlt
    · exact h q hge
  | some p =>
    refine ⟨hle.trans h.1, h.2.1, fun q hq hqp => ?_⟩
    rcases lt_or_ge q start with hlt | hge
    · exact hnot q hq hlt
    · exact h.2.2 q hge hqp

theorem load_inside {p : Nat} (hp : base ≤ p) (hend : p < base + size) :
    load memory base size p = some (memory p) := if_pos ⟨hp, hend⟩

theorem load_outside {p : Nat} (hp : ¬ (base ≤ p ∧ p < base + size)) : load memory base size p = none :=
  if_neg hp

theorem sumBytes_eq (n : Nat) : ∀ (p : Nat) (sum : Byte), base ≤ p → p + n ≤ base + size →
    sumBytes memory base size n p sum = some (sum + bytesSum memory p n) := by
  induction n with
  | zero =>
    intro p sum _ _
    simp [sumBytes, bytesSum]
  | succ n ih =>
    intro p sum hp hend
    have hload : load memory base size p = some (memory p) := load_inside hp (by omega)
    rw [sumBytes, hload, Option.bind_eq_bind, Option.bind_some, ih _ _ (by omega) (by omega), bytesSum,
      BitVec.add_assoc]

/-- Inside the region the checks read the structure and nothing else. -/
theorem validate_eq {p : Nat} (hp : Candidate base size p) :
    ∃ b, validate memory base size p = some b ∧ (b = true ↔ IsFloatingPointer memory p) := by
  have hroom : p + 16 ≤ base + size := hp.room
  have hstart := hp.start
  have hload : ∀ i < 16, load memory base size (p + i) = some (memory (p + i)) :=
    fun i hi => load_inside (by omega) (by omega)
  have hfirst : load memory base size p = some (memory p) := hload 0 (by omega)
  have hsum : (memory (p + 8)).toNat * 16 = sizeofFloatingPointer →
      checkSum memory base size p = some (decide (bytesSum memory p 16 = 0)) := by
    intro hlength
    have hbytes : sumBytes memory base size 16 p 0 = some (bytesSum memory p 16) :=
      (sumBytes_eq 16 p 0 hstart hroom).trans (congrArg some (BitVec.zero_add _))
    simp only [checkSum, hload 8 (by omega), hlength, sizeofFloatingPointer, hbytes, Option.bind_eq_bind,
      Option.bind_some]
    rfl
  have hsignature : checkSignature memory base size p =
      some (decide (memory (p + 3) ++ memory (p + 2) ++ memory (p + 1) ++ memory p =
        floatingPointerSignature)) := by
    simp [checkSignature, hfirst, hload]
  have hfields : checkFields memory base size p = some (decide
      ((memory (p + 8)).toNat * 16 = sizeofFloatingPointer ∧
        (memory (p + 9) = 1 ∨ memory (p + 9) = 4) ∧ (memory (p + 11)).toNat ≤ 7)) := by
    simp only [checkFields, hload 8 (by omega), hload 9 (by omega), hload 11 (by omega),
      Option.bind_eq_bind, Option.bind_some]
    split_ifs <;> simp_all
    grind
  by_cases hs : memory (p + 3) ++ memory (p + 2) ++ memory (p + 1) ++ memory p = floatingPointerSignature
  · by_cases hf : (memory (p + 8)).toNat * 16 = sizeofFloatingPointer ∧
        (memory (p + 9) = 1 ∨ memory (p + 9) = 4) ∧ (memory (p + 11)).toNat ≤ 7
    · rw [decide_eq_true hf] at hfields
      refine ⟨_, by simp [validate, hsignature, hfields, hs, hsum hf.1]; rfl, ?_⟩
      rw [decide_eq_true_iff]
      exact ⟨fun h => ⟨hs, hf.1, hf.2.1, hf.2.2, h⟩, fun h => h.checksum⟩
    · rw [decide_eq_false hf] at hfields
      refine ⟨false, by simp [validate, hsignature, hfields, hs], ?_⟩
      exact ⟨fun h => absurd h (by simp), fun h => absurd ⟨h.length, h.revision, h.configurationType⟩ hf⟩
  · refine ⟨false, by simp [validate, hsignature, hs], ?_⟩
    exact ⟨fun h => absurd h (by simp), fun h => absurd h.signature hs⟩

/-- The induction is on what is left of the region. `q` is the position before it is cut to `w` bits. -/
theorem searchLoop_outcome (hregion : base + size ≤ 2 ^ w) (length : Nat) : ∀ q, 16 ∣ q → base ≤ q →
    q + length = base + size → ∃ result,
      (∀ n, length < 16 * n → searchLoop w memory base size n (q % 2 ^ w) length = some result) ∧
      IsFirstFrom (fun p => Candidate base size p ∧ IsFloatingPointer memory p) q result := by
  induction length using Nat.strong_induction_on with
  | _ length ih =>
    intro q haligned hstart hq
    by_cases hlength : sizeofFloatingPointer ≤ length
    · have hsize : 16 ≤ length := hlength
      have hmod : q % 2 ^ w = q := Nat.mod_eq_of_lt (by omega)
      have hcandidate : Candidate base size q := ⟨haligned, hstart, by omega⟩
      obtain ⟨b, hb, hvalid⟩ : ∃ b, validate memory base size q = some b ∧
        (b = true ↔ IsFloatingPointer memory q) := validate_eq hcandidate
      cases b with
      | true =>
        refine ⟨some q, fun n hn => ?_, le_refl q, ⟨hcandidate, hvalid.1 rfl⟩, fun p hp hlt => by omega⟩
        cases n with
        | zero => omega
        | succ n => simp [searchLoop, hlength, hmod, hb]
      | false =>
        obtain ⟨result, hrun, hfirst⟩ := ih (length - 16) (by omega) (q + 16) (by omega) (by omega) (by omega)
        refine ⟨result, fun n hn => ?_, hfirst.lower (by omega) fun p hp hlt hthis => ?_⟩
        · cases n with
          | zero => omega
          | succ n =>
            have hrest := hrun n (by omega)
            simp [searchLoop, hlength, hmod, hb, hrest]
        · have haligned' := hthis.1.aligned
          have hpq : p = q := by omega
          rw [hpq] at hthis
          exact absurd (hvalid.2 hthis.2) (by simp)
    · refine ⟨none, fun n hn => ?_, fun p hp hthis => ?_⟩
      · cases n with
        | zero => omega
        | succ n => simp [searchLoop, hlength]
      · have hroom := hthis.1.room
        omega

/-- The start of the search. It is the wrapped end of the address space when nothing is aligned after `base`. -/
theorem alignedAddress_eq (hw : 4 ≤ w) (hbase : base < 2 ^ w) :
    alignedAddress w base = (base + padding base) % 2 ^ w := by
  obtain ⟨k, hk⟩ : 16 ∣ 2 ^ w := pow_dvd_pow 2 hw
  simp only [alignedAddress, padding]
  rcases lt_or_ge (base + 15) (2 ^ w) with hlt | hge
  · rw [Nat.mod_eq_of_lt hlt, Nat.mod_eq_of_lt (by omega)]
    omega
  · have hend : base + (16 - base % 16) % 16 = 2 ^ w := by omega
    rw [hend, Nat.mod_self, Nat.mod_eq_sub_mod hge, Nat.mod_eq_of_lt (by omega)]
    omega

/-- What is subtracted from the length. -/
theorem diff_eq (hw : 4 ≤ w) (hbase : base < 2 ^ w) :
    (alignedAddress w base + (2 ^ w - base)) % 2 ^ w = padding base := by
  have hpow : 2 ^ 4 ≤ 2 ^ w := Nat.pow_le_pow_right (by omega) hw
  have hpadding : padding base < 16 := Nat.mod_lt _ (by omega)
  have hsplit : base + padding base + (2 ^ w - base) = padding base + 2 ^ w := by omega
  rw [alignedAddress_eq hw hbase, Nat.mod_add_mod, hsplit, Nat.add_mod_right, Nat.mod_eq_of_lt (by omega)]

/-- A region that ends before the next aligned address: the length wraps and the search leaves the region. -/
theorem searchMemory_short (hw : 5 ≤ w) (hbase : base < 2 ^ w)
    (hsize : size < padding base) (n : Nat) : searchMemory w memory base size n = none := by
  have hpow : 2 ^ 5 ≤ 2 ^ w := Nat.pow_le_pow_right (by omega) hw
  have hpadding : padding base < 16 := Nat.mod_lt _ (by omega)
  have hlength : sizeofFloatingPointer ≤ (size + (2 ^ w - padding base)) % 2 ^ w := by
    rw [Nat.mod_eq_of_lt (by omega)]
    simp only [sizeofFloatingPointer]
    omega
  have houtside : load memory base size (alignedAddress w base) = none := by
    apply load_outside
    rw [alignedAddress_eq (by omega) hbase]
    rcases lt_or_ge (base + padding base) (2 ^ w) with hlt | hge
    · rw [Nat.mod_eq_of_lt hlt]
      omega
    · rw [Nat.mod_eq_sub_mod hge, Nat.mod_eq_of_lt (by omega)]
      omega
  simp only [searchMemory]
  rw [diff_eq (by omega) hbase]
  cases n with
  | zero => rfl
  | succ n => simp [searchLoop, hlength, validate, checkSignature, houtside]

theorem searchMemory_right (w : Nat) (memory : Nat → Byte) (base size : Nat) (hw : 4 ≤ w)
    (hbase : base < 2 ^ w) (hsize : size < 2 ^ w) (hregion : base + size ≤ 2 ^ w)
    (hpadding : padding base ≤ size) :
    SearchRight w memory base size (IsFloatingPointer memory) := by
  have haligned : 16 ∣ base + padding base := by
    simp only [padding]
    omega
  obtain ⟨result, hrun, hfirst⟩ := @searchLoop_outcome w memory base size hregion (size - padding base)
    (base + padding base) haligned (by omega) (by omega)
  have hlength : (size + (2 ^ w - padding base)) % 2 ^ w = size - padding base := by
    have hsplit : size + (2 ^ w - padding base) = size - padding base + 2 ^ w := by omega
    rw [hsplit, Nat.add_mod_right, Nat.mod_eq_of_lt (by omega)]
  refine ⟨result, size + 1, fun n hn => ?_, hfirst.lower (by omega) fun q hq hlt hthis => ?_⟩
  · simp only [searchMemory]
    rw [diff_eq hw hbase, hlength, alignedAddress_eq hw hbase]
    exact hrun n (by omega)
  · have hthere := hthis.1.aligned
    simp only [padding] at hlt
    omega

/-- A structure at address 16 of the given revision, with its checksum. -/
def structureAt16 (revision checksum : Byte) : Nat → Byte
  | 16 => 0x5F
  | 17 => 0x4D
  | 18 => 0x50
  | 19 => 0x5F
  | 24 => 1
  | 25 => revision
  | 26 => checksum
  | _ => 0

theorem searchMemory_right_at_16 :
    SearchRight 64 (structureAt16 4 0xA0) 1 40 (IsFloatingPointer (structureAt16 4 0xA0)) :=
  searchMemory_right 64 (structureAt16 4 0xA0) 1 40 (by omega) (by omega) (by omega) (by omega) (by decide)

/-- A valid signature, and a checksum over the length that the structure states. -/
def IsSigned (memory : Nat → Byte) (p : Nat) : Prop :=
  memory (p + 3) ++ memory (p + 2) ++ memory (p + 1) ++ memory p = floatingPointerSignature ∧
    bytesSum memory p ((memory (p + 8)).toNat * 16) = 0

/-- A region of one byte is left, and a structure of another revision is passed over. -/
theorem searchMemory_leaves_and_passes :
    ¬ SearchRight 64 (fun _ => 0) 1 1 (IsSigned fun _ => 0) ∧
      ¬ SearchRight 64 (structureAt16 2#8 0xA2#8) 16 16 (IsSigned (structureAt16 2#8 0xA2#8)) := by
  constructor
  · rintro ⟨result, rounds, hrun, -⟩
    have hleft : searchMemory 64 (fun _ => 0) 1 1 rounds = none :=
      searchMemory_short (by omega) (by omega) (by decide) rounds
    rw [hrun rounds le_rfl] at hleft
    cases hleft
  · rintro ⟨result, rounds, hrun, hfirst⟩
    have hnothing : searchMemory 64 (structureAt16 2#8 0xA2#8) 16 16 (rounds + 2) = some none := by
      have hrejected : validate (structureAt16 2#8 0xA2#8) 16 16 16 = some false := by decide
      have haligned : alignedAddress 64 16 = 16 := by decide
      simp only [searchMemory, haligned]
      simp [searchLoop, sizeofFloatingPointer, hrejected]
    rw [hrun (rounds + 2) (by omega)] at hnothing
    cases hnothing
    exact hfirst 16 le_rfl ⟨⟨by decide, le_rfl, le_rfl⟩, by decide, by decide⟩

end

end XviOs.Firmware
