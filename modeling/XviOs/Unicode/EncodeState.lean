import Mathlib.Tactic

namespace XviOs.Unicode

def leadSurrogateBegin : UInt16 := 0xD800
def leadSurrogateEnd : UInt16 := 0xDBFF
def trailSurrogateBegin : UInt16 := 0xDC00
def trailSurrogateEnd : UInt16 := 0xDFFF
def lastValidCodepoint : UInt32 := 0x10FFFF

def isValidCodepoint (c : UInt32) : Bool :=
  if c > lastValidCodepoint then false
  else if leadSurrogateBegin.toUInt32 ≤ c ∧ c ≤ trailSurrogateEnd.toUInt32 then false
  else true

def utf8LengthFromCodepoint (c : UInt32) : Nat :=
  if c < 0x80 then 1
  else if c < 0x800 then 2
  else if c < 0x10000 then 3
  else if c ≤ lastValidCodepoint then 4
  else 0

/-- `std::countl_one` of a byte. -/
def countlOne (c : UInt8) : Nat := ((List.range 8).takeWhile c.toBitVec.getMsbD).length

def utf8LengthFromLeadByte (c : UInt8) : Nat :=
  if countlOne c = 1 ∨ countlOne c > 4 then 0
  else if countlOne c = 0 then 1
  else countlOne c

def isUTF8LeadByte (c : UInt8) : Bool := utf8LengthFromLeadByte c > 0

def isUTF8ContinuationByte (c : UInt8) : Bool := c &&& 0xC0 == 0x80

/-- The code point that the bytes of this length stand for. -/
def utf8Code (len : Nat) (lead t1 t2 t3 : UInt8) : UInt32 :=
  match len with
  | 1 => (lead &&& 0x7f).toUInt32
  | 2 => (lead &&& 0x1f).toUInt32 <<< 6 ||| (t1 &&& 0x3f).toUInt32
  | 3 => (lead &&& 0x0f).toUInt32 <<< 12 ||| (t1 &&& 0x3f).toUInt32 <<< 6 ||| (t2 &&& 0x3f).toUInt32
  | _ => (lead &&& 0x07).toUInt32 <<< 18 ||| (t1 &&& 0x3f).toUInt32 <<< 12 ||| (t2 &&& 0x3f).toUInt32 <<< 6 |||
      (t3 &&& 0x3f).toUInt32

def utf8Decode (lead t1 t2 t3 : UInt8) : Option UInt32 :=
  if ¬ isUTF8LeadByte lead then none
  else if 4 ≤ utf8LengthFromLeadByte lead ∧ ¬ isUTF8ContinuationByte t3 then none
  else if 3 ≤ utf8LengthFromLeadByte lead ∧ ¬ isUTF8ContinuationByte t2 then none
  else if 2 ≤ utf8LengthFromLeadByte lead ∧ ¬ isUTF8ContinuationByte t1 then none
  else if ¬ isValidCodepoint (utf8Code (utf8LengthFromLeadByte lead) lead t1 t2 t3) then none
  -- an over-long encoding is not accepted
  else if utf8LengthFromCodepoint (utf8Code (utf8LengthFromLeadByte lead) lead t1 t2 t3) ≠
      utf8LengthFromLeadByte lead then none
  else some (utf8Code (utf8LengthFromLeadByte lead) lead t1 t2 t3)

theorem utf8LengthFromLeadByte_le (c : UInt8) : utf8LengthFromLeadByte c ≤ 4 := by
  rw [utf8LengthFromLeadByte]
  split
  · exact Nat.zero_le _
  · split <;> omega

theorem utf8LengthFromLeadByte_eq (b : UInt8) : utf8LengthFromLeadByte b =
    if b.toNat < 0x80 then 1 else if b.toNat < 0xC0 then 0 else if b.toNat < 0xE0 then 2
    else if b.toNat < 0xF0 then 3 else if b.toNat < 0xF8 then 4 else 0 := by
  have hall : ∀ n < 256, utf8LengthFromLeadByte (UInt8.ofNat n) =
      if n < 0x80 then 1 else if n < 0xC0 then 0 else if n < 0xE0 then 2
      else if n < 0xF0 then 3 else if n < 0xF8 then 4 else 0 := by
    decide +kernel
  have h := hall b.toNat b.toNat_lt
  rwa [UInt8.ofNat_toNat] at h

theorem isUTF8ContinuationByte_iff (b : UInt8) :
    isUTF8ContinuationByte b = true ↔ 0x80 ≤ b.toNat ∧ b.toNat < 0xC0 := by
  have hall : ∀ n < 256, isUTF8ContinuationByte (UInt8.ofNat n) = true ↔ 0x80 ≤ n ∧ n < 0xC0 := by
    decide +kernel
  have h := hall b.toNat b.toNat_lt
  rwa [UInt8.ofNat_toNat] at h

theorem isUTF8LeadByte_iff (b : UInt8) : isUTF8LeadByte b = true ↔ 0 < utf8LengthFromLeadByte b := by
  simp [isUTF8LeadByte]

/-- No byte is both a lead byte and a continuation byte. -/
theorem not_isUTF8LeadByte_of_continuation {c : UInt8} (hc : isUTF8ContinuationByte c) : ¬ isUTF8LeadByte c := by
  have hrange := (isUTF8ContinuationByte_iff c).mp hc
  rw [isUTF8LeadByte_iff, utf8LengthFromLeadByte_eq, if_neg (by omega), if_pos hrange.2]
  exact Nat.lt_irrefl 0

theorem utf8Decode_of_continuation {lead : UInt8} (h : isUTF8ContinuationByte lead) (t1 t2 t3 : UInt8) :
    utf8Decode lead t1 t2 t3 = none := if_pos (not_isUTF8LeadByte_of_continuation h)

end XviOs.Unicode

namespace XviOs.Unicode

inductive State where
  | initial
  | consumeUTF8
  | consumeUTF16
  | produceAny
  | produceUTF8
  | produceUTF16
  | invalid
  deriving DecidableEq

/-- `EncodeStateInternal`. The bytes that go in and the code point that comes out are of one union, and the code point
is written when the bytes have been read. -/
structure EncodeState where
  utf8 : Vector UInt8 4 := #v[0, 0, 0, 0]
  utf32 : UInt32 := 0
  state : State := .initial
  len : Nat := 0
  expectedLen : Nat := 0
  deriving DecidableEq

namespace EncodeState

variable (s : EncodeState) (c : UInt8)

def isInitialState : Bool := s.state = .initial

def consumeUTF8LeadByte : Bool × EncodeState :=
  if !s.isInitialState then (false, s)
  else if !isUTF8LeadByte c then (false, s)
  else (true, { s with state := .consumeUTF8, utf8 := s.utf8.setIfInBounds 0 c, expectedLen := utf8LengthFromLeadByte c })

/-- A full code point is decoded. -/
def decodeFull : Bool × EncodeState :=
  match utf8Decode s.utf8[0] s.utf8[1] s.utf8[2] s.utf8[3] with
  | none => (false, { s with state := .invalid })
  | some cp => (true, { s with utf32 := cp, state := .produceAny })

def consumeUTF8ContinuationByte : Bool × EncodeState :=
  if s.state ≠ .consumeUTF8 then (false, s)
  else if !isUTF8ContinuationByte c then (false, s)
  else
    let s' := { s with utf8 := s.utf8.setIfInBounds s.len c, len := s.len + 1 }
    if s'.len = s'.expectedLen then s'.decodeFull else (true, s')

/-- The first byte is given as a lead byte, and those after it as continuation bytes. -/
def feed : Bool × EncodeState :=
  if s.isInitialState then s.consumeUTF8LeadByte c else s.consumeUTF8ContinuationByte c

/-- The state after all the bytes, or none when one is rejected. -/
def feedAll : EncodeState → List UInt8 → Option EncodeState
  | s, [] => some s
  | s, c :: bytes => if (s.feed c).1 then feedAll (s.feed c).2 bytes else none

/-- More input is asked for. -/
def AsksForMore : Prop := s.state = .initial ∨ s.state = .consumeUTF8

/-- The code point can be taken. -/
def Produces (cp : UInt32) : Prop := s.state = .produceAny ∧ s.utf32 = cp

end EncodeState

/-- Fed with the code point's encoding, the state accepts every byte, asks for more until the last one, and then has
the code point. -/
def Streams (c : Char) : Prop :=
  (∀ bytes, bytes <+: String.utf8EncodeChar c → bytes ≠ String.utf8EncodeChar c →
    ∃ s, EncodeState.feedAll {} bytes = some s ∧ s.AsksForMore) ∧
  ∃ s, EncodeState.feedAll {} (String.utf8EncodeChar c) = some s ∧ s.Produces c.val

/-- The bytes start a well-formed sequence. -/
def StartsWellFormed (bytes : List UInt8) : Prop := ∃ c : Char, bytes <+: String.utf8EncodeChar c

/-- A lead byte with fewer continuation bytes than its length. -/
def ShortOfLead : List UInt8 → Prop
  | [] => True
  | lead :: tail =>
    isUTF8LeadByte lead ∧ (∀ c ∈ tail, isUTF8ContinuationByte c) ∧ tail.length < utf8LengthFromLeadByte lead

namespace EncodeState

/-- After a lead byte and `k` continuation bytes. The first of these has taken the lead byte's place. -/
structure Consuming (lead : UInt8) (k : Nat) (s : EncodeState) : Prop where
  state : s.state = .consumeUTF8
  len : s.len = k
  expectedLen : s.expectedLen = utf8LengthFromLeadByte lead
  first : 0 < k → isUTF8ContinuationByte s.utf8[0]

variable {s t : EncodeState} {lead c : UInt8} {k : Nat}

theorem Consuming.feed_eq (h : Consuming lead k s) (c : UInt8) : s.feed c = s.consumeUTF8ContinuationByte c := by
  have hinit : s.isInitialState = false := by rw [isInitialState, h.state]; rfl
  rw [feed, hinit]
  rfl

theorem Consuming.reject (h : Consuming lead k s) (hc : ¬ isUTF8ContinuationByte c) : (s.feed c).1 = false := by
  rw [h.feed_eq, consumeUTF8ContinuationByte, if_neg (by simp [h.state]), if_pos (by simpa using hc)]

theorem first_set {utf8 : Vector UInt8 4} (hc : isUTF8ContinuationByte c)
    (hfirst : 0 < k → isUTF8ContinuationByte utf8[0]) : isUTF8ContinuationByte (utf8.setIfInBounds k c)[0] := by
  rw [Vector.getElem_setIfInBounds]
  split
  · exact hc
  · exact hfirst (by omega)

/-- A continuation byte is taken while it is not the last one. -/
theorem Consuming.accept (h : Consuming lead k s) (hc : isUTF8ContinuationByte c)
    (hk : k + 1 < utf8LengthFromLeadByte lead) : (s.feed c).1 = true ∧ Consuming lead (k + 1) (s.feed c).2 := by
  have hne : ¬ s.len + 1 = s.expectedLen := by
    rw [h.len, h.expectedLen]
    omega
  rw [h.feed_eq, consumeUTF8ContinuationByte, if_neg (by simp [h.state]), if_neg (by simp [hc]), if_neg hne]
  refine ⟨rfl, h.state, by rw [h.len], h.expectedLen, fun _ => first_set hc ?_⟩
  rw [h.len]
  exact h.first

/-- With the last byte, a continuation byte is decoded as the lead byte. -/
theorem Consuming.full (h : Consuming lead k s) (hc : isUTF8ContinuationByte c)
    (hk : k + 1 = utf8LengthFromLeadByte lead) : (s.feed c).1 = false := by
  have heq : s.len + 1 = s.expectedLen := by rw [h.len, h.expectedLen, hk]
  have hfirst : isUTF8ContinuationByte (s.utf8.setIfInBounds s.len c)[0] := by
    apply first_set hc
    rw [h.len]
    exact h.first
  rw [h.feed_eq, consumeUTF8ContinuationByte, if_neg (by simp [h.state]), if_neg (by simp [hc]), if_pos heq, decodeFull,
    utf8Decode_of_continuation hfirst]

theorem Consuming.feedAll (h : Consuming lead k s) (hk : k < utf8LengthFromLeadByte lead) {tail : List UInt8}
    (htail : ∀ c ∈ tail, isUTF8ContinuationByte c) (hlen : k + tail.length < utf8LengthFromLeadByte lead) :
    ∃ t, s.feedAll tail = some t ∧ Consuming lead (k + tail.length) t := by
  induction tail generalizing s k with
  | nil => exact ⟨s, rfl, h⟩
  | cons c tail ih =>
    rw [List.length_cons] at hlen
    obtain ⟨haccept, hnext⟩ := h.accept (htail c List.mem_cons_self) (by omega)
    obtain ⟨t, ht, hlast⟩ := ih hnext (by omega) (fun b hb => htail b (List.mem_cons_of_mem _ hb)) (by omega)
    refine ⟨t, ?_, ?_⟩
    · rw [EncodeState.feedAll, if_pos haccept, ht]
    · rw [List.length_cons, Nat.add_comm tail.length, ← Nat.add_assoc]
      exact hlast

theorem Consuming.feedAll_none (h : Consuming lead k s) (hk : k < utf8LengthFromLeadByte lead) {tail : List UInt8}
    (hnot : ¬ ((∀ c ∈ tail, isUTF8ContinuationByte c) ∧ k + tail.length < utf8LengthFromLeadByte lead)) :
    s.feedAll tail = none := by
  induction tail generalizing s k with
  | nil => exact absurd ⟨by simp, hk⟩ hnot
  | cons c tail ih =>
    rw [EncodeState.feedAll]
    by_cases hc : isUTF8ContinuationByte c
    · by_cases hlast : k + 1 = utf8LengthFromLeadByte lead
      · rw [h.full hc hlast]
        rfl
      · obtain ⟨haccept, hnext⟩ := h.accept hc (by omega)
        rw [if_pos haccept]
        apply ih hnext (by omega)
        rintro ⟨htail, hlen⟩
        refine hnot ⟨?_, ?_⟩
        · intro b hb
          rcases List.mem_cons.mp hb with rfl | hb
          · exact hc
          · exact htail b hb
        · rw [List.length_cons]
          omega
    · rw [h.reject hc]
      rfl

theorem feed_lead (hlead : isUTF8LeadByte lead) :
    (feed {} lead).1 = true ∧ Consuming lead 0 (feed {} lead).2 := by
  rw [feed, if_pos (by decide), consumeUTF8LeadByte, if_neg (by decide), if_neg (by simp [hlead])]
  exact ⟨rfl, rfl, rfl, rfl, by simp⟩

theorem feed_not_lead (hlead : ¬ isUTF8LeadByte lead) : (feed {} lead).1 = false := by
  rw [feed, if_pos (by decide), consumeUTF8LeadByte, if_neg (by decide), if_pos (by simpa using hlead)]

/-- What is accepted is short of its lead byte, and leaves the state asking for more. -/
theorem feedAll_shortOfLead {bytes : List UInt8} (h : ShortOfLead bytes) :
    ∃ s, feedAll {} bytes = some s ∧ s.AsksForMore := by
  cases bytes with
  | nil => exact ⟨{}, rfl, Or.inl rfl⟩
  | cons lead tail =>
    obtain ⟨hlead, htail, hlen⟩ := h
    obtain ⟨haccept, hfirst⟩ := feed_lead hlead
    obtain ⟨s, hs, hlast⟩ := hfirst.feedAll (by omega) htail (by omega)
    refine ⟨s, ?_, Or.inr hlast.state⟩
    rw [feedAll, if_pos haccept, hs]

theorem feedAll_not_shortOfLead {bytes : List UInt8} (h : ¬ ShortOfLead bytes) : feedAll {} bytes = none := by
  cases bytes with
  | nil => exact absurd trivial h
  | cons lead tail =>
    rw [feedAll]
    by_cases hlead : isUTF8LeadByte lead
    · obtain ⟨haccept, hfirst⟩ := feed_lead hlead
      rw [if_pos haccept]
      apply hfirst.feedAll_none (by simpa [isUTF8LeadByte] using hlead)
      rintro ⟨htail, hlen⟩
      exact h ⟨hlead, htail, by omega⟩
    · rw [feed_not_lead hlead]
      rfl

theorem feedAll_eq_none_iff (bytes : List UInt8) : feedAll {} bytes = none ↔ ¬ ShortOfLead bytes := by
  constructor
  · intro hnone hshort
    obtain ⟨s, hs, -⟩ := feedAll_shortOfLead hshort
    rw [hs] at hnone
    exact absurd hnone (by simp)
  · exact feedAll_not_shortOfLead

/-- No sequence of bytes leads to a code point. -/
theorem not_produces {bytes : List UInt8} {s : EncodeState} (h : feedAll {} bytes = some s) (cp : UInt32) :
    ¬ s.Produces cp := by
  have hshort : ShortOfLead bytes := by
    by_contra hnot
    rw [feedAll_not_shortOfLead hnot] at h
    exact absurd h (by simp)
  obtain ⟨t, ht, hmore⟩ := feedAll_shortOfLead hshort
  obtain rfl : t = s := Option.some_inj.mp (ht.symm.trans h)
  rintro ⟨hstate, -⟩
  rw [AsksForMore, hstate] at hmore
  simp at hmore

end EncodeState

/-- A byte whose length is known not to be zero is a lead byte. -/
theorem lead_of_length {n len : Nat} (hn : n < 256) (hpos : 0 < len)
    (hlen : (if n < 0x80 then 1 else if n < 0xC0 then 0 else if n < 0xE0 then 2
      else if n < 0xF0 then 3 else if n < 0xF8 then 4 else 0) = len) :
    isUTF8LeadByte (UInt8.ofNat n) ∧ utf8LengthFromLeadByte (UInt8.ofNat n) = len := by
  have hbyte : (UInt8.ofNat n).toNat = n := by rw [UInt8.toNat_ofNat', Nat.mod_eq_of_lt hn]
  rw [isUTF8LeadByte_iff, utf8LengthFromLeadByte_eq, hbyte, hlen]
  exact ⟨hpos, rfl⟩

theorem lead_one {n : Nat} (hn : n < 128) :
    isUTF8LeadByte (UInt8.ofNat n) ∧ utf8LengthFromLeadByte (UInt8.ofNat n) = 1 :=
  lead_of_length (by omega) Nat.zero_lt_one (if_pos hn)

theorem lead_two {n : Nat} (hn : n < 32) :
    isUTF8LeadByte (UInt8.ofNat (n + 0xc0)) ∧ utf8LengthFromLeadByte (UInt8.ofNat (n + 0xc0)) = 2 :=
  lead_of_length (by omega) Nat.zero_lt_two (by split_ifs <;> omega)

theorem lead_three {n : Nat} (hn : n < 16) :
    isUTF8LeadByte (UInt8.ofNat (n + 0xe0)) ∧ utf8LengthFromLeadByte (UInt8.ofNat (n + 0xe0)) = 3 :=
  lead_of_length (by omega) (Nat.succ_pos 2) (by split_ifs <;> omega)

theorem lead_four {n : Nat} (hn : n < 8) :
    isUTF8LeadByte (UInt8.ofNat (n + 0xf0)) ∧ utf8LengthFromLeadByte (UInt8.ofNat (n + 0xf0)) = 4 :=
  lead_of_length (by omega) (Nat.succ_pos 3) (by split_ifs <;> omega)

theorem continuation {n : Nat} (hn : n < 64) : isUTF8ContinuationByte (UInt8.ofNat (n + 0x80)) := by
  rw [isUTF8ContinuationByte_iff, UInt8.toNat_ofNat', Nat.mod_eq_of_lt (by omega)]
  omega

/-- An encoding is a lead byte and as many continuation bytes as its length asks for. -/
theorem shortOfLead_encoding (c : Char) : ShortOfLead (String.utf8EncodeChar c) := by
  have hmod : ∀ v : Nat, isUTF8ContinuationByte (UInt8.ofNat (v % 0x40 + 0x80)) := fun v =>
    continuation (Nat.mod_lt v (by decide))
  rw [String.utf8EncodeChar]
  split
  · next h =>
    obtain ⟨hlead, hlen⟩ := lead_one (n := c.val.toNat) (by omega)
    exact ⟨hlead, List.forall_mem_nil _, hlen ▸ Nat.zero_lt_one⟩
  split
  · obtain ⟨hlead, hlen⟩ := lead_two (Nat.mod_lt (c.val.toNat / 64) (by decide : 0 < 0x20))
    refine ⟨hlead, ?_, by rw [hlen]; exact Nat.lt_succ_self 1⟩
    exact List.forall_mem_cons.mpr ⟨hmod _, List.forall_mem_nil _⟩
  split
  · obtain ⟨hlead, hlen⟩ := lead_three (Nat.mod_lt (c.val.toNat / 4096) (by decide : 0 < 0x10))
    refine ⟨hlead, ?_, by rw [hlen]; exact Nat.lt_succ_self 2⟩
    exact List.forall_mem_cons.mpr ⟨hmod _, List.forall_mem_cons.mpr ⟨hmod _, List.forall_mem_nil _⟩⟩
  · obtain ⟨hlead, hlen⟩ := lead_four (Nat.mod_lt (c.val.toNat / 262144) (by decide : 0 < 0x08))
    refine ⟨hlead, ?_, by rw [hlen]; exact Nat.lt_succ_self 3⟩
    exact List.forall_mem_cons.mpr ⟨hmod _, List.forall_mem_cons.mpr ⟨hmod _, List.forall_mem_cons.mpr
      ⟨hmod _, List.forall_mem_nil _⟩⟩⟩

/-- Every byte of an encoding is accepted, and more input is asked for after the last one. -/
theorem feedAll_encoding (c : Char) :
    ∃ s, EncodeState.feedAll {} (String.utf8EncodeChar c) = some s ∧ s.AsksForMore :=
  EncodeState.feedAll_shortOfLead (shortOfLead_encoding c)

/-- No code point comes out of its encoding, and bytes are rejected exactly unless they are short of their lead byte. -/
theorem encodeState_iff (c : Char) (bytes : List UInt8) :
    ¬ Streams c ∧
      ((¬ StartsWellFormed bytes → EncodeState.feedAll {} bytes = none) ↔
        (StartsWellFormed bytes ∨ ¬ ShortOfLead bytes)) := by
  constructor
  · rintro ⟨-, s, hs, hproduces⟩
    exact EncodeState.not_produces hs c.val hproduces
  · rw [EncodeState.feedAll_eq_none_iff, or_iff_not_imp_left]

/-- The letter A is taken as a lead byte, after which the state asks for more. -/
theorem encodeState_letter :
    ¬ ((∀ c, Streams c) ∧ ∀ bytes, ¬ StartsWellFormed bytes → EncodeState.feedAll {} bytes = none) := by
  rintro ⟨h, -⟩
  obtain ⟨-, s, hs, hstate, -⟩ := h 'A'
  have hfeed : EncodeState.feedAll {} (String.utf8EncodeChar 'A') =
      some { state := .consumeUTF8, utf8 := #v[65, 0, 0, 0], expectedLen := 1 } := by decide +kernel
  rw [hfeed, Option.some_inj] at hs
  rw [← hs] at hstate
  exact absurd hstate (by decide)

end XviOs.Unicode
