import XviOs.Fat.LongName

namespace XviOs.Fat

namespace Dirent

/-- A last part that is counted as the 21st: its ordinal is in the permitted range,
but the name that it begins is longer than the array. -/
def IsPart21 (e : Dirent) : Prop := ¬ e.IsEnd ∧ ¬ e.IsUnused ∧ e.isLFNEntry ∧ e.ordinal = 0x55 ∧ e.type = 0

/-- A 20th part, that is not the last one, of a name with this checksum. -/
def IsPart20 (e : Dirent) (sum : UInt8) : Prop :=
  ¬ e.IsEnd ∧ ¬ e.IsUnused ∧ e.isLFNEntry ∧ e.ordinal = 20 ∧ e.type = 0 ∧ e.checksum = sum

instance (e : Dirent) : Decidable e.IsPart21 := inferInstanceAs (Decidable (_ ∧ _))
instance (e : Dirent) (sum : UInt8) : Decidable (e.IsPart20 sum) := inferInstanceAs (Decidable (_ ∧ _))

end Dirent

/-- After some short entries there is a 20th part with the checksum `sum`. -/
inductive Reaches20 (sum : UInt8) : List Dirent → Prop
  | here {e : Dirent} {es : List Dirent} : e.IsPart20 sum → Reaches20 sum (e :: es)
  | short {e : Dirent} {es : List Dirent} : e.IsShort → Reaches20 sum es → Reaches20 sum (e :: es)

/-- In front of the end of the directory stands a 21st part, and behind it, with
nothing but short entries between them, a 20th part with the same checksum. -/
inductive Overruns : List Dirent → Prop
  | here {e : Dirent} {es : List Dirent} : e.IsPart21 → Reaches20 e.checksum es → Overruns (e :: es)
  | later {e : Dirent} {es : List Dirent} : ¬ e.IsEnd → Overruns es → Overruns (e :: es)

/-- No write is outside of the array of characters, and the length never exceeds it. -/
def MemorySafe (es : List Dirent) : Prop :=
  ∀ front, front <+: es → ∃ s, LfnState.empty.process front = .ok s ∧ s.length ≤ 255

namespace LfnState

/-- The states that the enumeration of a directory reaches. -/
structure Reachable (s : LfnState) : Prop where
  length_le : s.length ≤ 255
  ordinal_le : s.ordinal ≤ 20
  length_of_ordinal : s.ordinal = 20 → s.length = 0

variable {s s' : LfnState} {e : Dirent} {es : List Dirent}

theorem reachable_empty : empty.Reachable := ⟨by decide, by decide, by decide⟩

theorem trimPadding_le (lfn : Vector UInt16 255) (n : Nat) : trimPadding lfn n ≤ n := by
  induction n with
  | zero => exact Nat.le_refl 0
  | succ n ih =>
      unfold trimPadding
      split <;> omega

theorem length_applyLast (e : Dirent) : (empty.applyLastLFNEntry e).2.length ≤ 255 := by
  unfold applyLastLFNEntry maxLFNNameLength
  grind [empty]

theorem ordinal_byte : ∀ b : Fin 256, UInt8.ofFin b &&& directoryEntryLastLFNBit ≠ 0 →
    ((UInt8.ofFin b &&& ~~~directoryEntryLastLFNBit).toNat = maxLFNOrdinal ↔ UInt8.ofFin b = 0x55) := by
  decide +kernel

theorem lastChar_le (chars : List UInt16) (offset : Nat) : lastChar chars offset ≤ offset := by
  induction offset with
  | zero => exact Nat.le_refl 0
  | succ n ih =>
      unfold lastChar
      split <;> omega

/-- The state after a last part expects the part below it, which is the 20th only
after a 21st one. -/
theorem applyLast_ordinal (h : e.ordinal &&& directoryEntryLastLFNBit ≠ 0) :
    (empty.applyLastLFNEntry e).2.ordinal ≤ 20 ∧
      ((empty.applyLastLFNEntry e).2.ordinal = 20 ↔ e.ordinal = 0x55 ∧ e.type = 0) := by
  have hb := ordinal_byte e.ordinal.toFin h
  rw [UInt8.ofFin_toFin] at hb
  unfold applyLastLFNEntry
  grind [empty, maxLFNOrdinal, minLFNOrdinal]

theorem applyLast_of_part21 (h : e.IsPart21) :
    (empty.applyLastLFNEntry e).2.length = 0 ∧ (empty.applyLastLFNEntry e).2.checksum = e.checksum := by
  obtain ⟨-, -, -, ho, ht⟩ := h
  have hflag : ¬ e.ordinal &&& directoryEntryLastLFNBit = 0 := by rw [ho]; decide
  have hord : (e.ordinal &&& ~~~directoryEntryLastLFNBit).toNat = 21 := by rw [ho]; decide
  have hlen (n : Nat) : 20 * charsPerLFNEntry + n + 1 > maxLFNNameLength := by
    simp only [charsPerLFNEntry, maxLFNNameLength]
    omega
  simp [applyLastLFNEntry, hflag, hord, ht, hlen, maxLFNOrdinal, minLFNOrdinal, empty]

/-- The state expects the 20th part of a name with the checksum `sum`, whose 21st
part was too long. -/
def Armed (s : LfnState) (sum : UInt8) : Prop := s.ordinal = 20 ∧ s.checksum = sum

theorem not_armed_empty (sum : UInt8) : ¬ empty.Armed sum := fun h => absurd h.1 (by decide)

theorem applyLFNEntry_overrun (h : e.IsPart20 s.checksum) (ho : s.ordinal = 20) :
    s.applyLFNEntry e = .error .outOfBounds := by
  obtain ⟨-, -, -, hord, ht, hc⟩ := h
  have hflag : (20 : UInt8) &&& directoryEntryLastLFNBit = 0 := by decide
  simp [applyLFNEntry, hflag, ho, hord, ht, hc, charsPerLFNEntry, maxLFNNameLength]

/-- A part that is accepted is counted down; one that is not leaves the state. -/
theorem applyLFNEntry_ok (hr : s.Reachable) (hend : ¬ e.IsEnd) (hflag : e.ordinal &&& directoryEntryLastLFNBit = 0)
    (h : ¬ (s.ordinal = 20 ∧ e.ordinal = 20 ∧ e.type = 0 ∧ e.checksum = s.checksum)) :
    ∃ r, s.applyLFNEntry e = .ok r ∧
      (r.1 = true → r.2.ordinal + 1 = s.ordinal ∧ r.2.length = s.length) := by
  have hle := hr.ordinal_le
  have hne : e.ordinal.toNat ≠ 0 := fun h0 => hend (UInt8.toNat_inj.mp h0)
  have h20 : e.ordinal.toNat = 20 → e.ordinal = 20 := fun h0 => UInt8.toNat_inj.mp h0
  unfold applyLFNEntry charsPerLFNEntry maxLFNNameLength
  rw [if_neg (not_not.mpr hflag)]
  by_cases ho : e.ordinal.toNat = s.ordinal
  · by_cases ht : e.type = 0
    · by_cases hc : e.checksum = s.checksum
      · have hlt : s.ordinal ≠ 20 := fun h0 => h ⟨h0, h20 (ho.trans h0), ht, hc⟩
        rw [if_neg (not_not.mpr ho), if_neg (not_not.mpr ht), if_neg (not_not.mpr hc), if_neg (by omega)]
        exact ⟨_, rfl, fun _ => ⟨Nat.sub_add_cancel (by omega), rfl⟩⟩
      · rw [if_neg (not_not.mpr ho), if_neg (not_not.mpr ht), if_pos hc]
        exact ⟨_, rfl, by simp⟩
    · rw [if_neg (not_not.mpr ho), if_pos ht]
      exact ⟨_, rfl, by simp⟩
  · rw [if_pos ho]
    exact ⟨_, rfl, by simp⟩

theorem validate_length_le (s : LfnState) (e : Dirent) :
    (s.validateShortNameEntry e).2.length ≤ s.length ∧ (s.validateShortNameEntry e).2.ordinal = s.ordinal := by
  have := trimPadding_le s.lfn s.length
  unfold validateShortNameEntry
  grind

/-- A short entry leaves a state with a rejected name as it is, and no state that
expects the 20th part otherwise. -/
theorem scan_short (hr : s.Reachable) (h : e.IsShort) :
    ∃ s', s.scan e = .ok (.found s') ∧ s'.Reachable ∧ ∀ sum, s'.Armed sum ↔ s.Armed sum := by
  obtain ⟨hend, hun, hlfn⟩ := h
  unfold scan
  rw [if_neg hend, if_neg hun, if_neg (by simp [hlfn])]
  by_cases hl : s.length > 0
  · have h20 : s.ordinal ≠ 20 := fun ho => by have := hr.length_of_ordinal ho; omega
    obtain ⟨hle, ho⟩ := validate_length_le s e
    have hle' := hr.length_le
    have hle'' := hr.ordinal_le
    rw [if_pos hl]
    refine ⟨_, rfl, ?_⟩
    cases hv : (s.validateShortNameEntry e).1
    · exact ⟨reachable_empty, fun sum => ⟨fun ha => absurd ha (not_armed_empty sum), fun ha => absurd ha.1 h20⟩⟩
    · simp only [if_true]
      refine ⟨⟨by omega, by omega, fun h0 => absurd (ho.symm.trans h0) h20⟩, fun sum => ?_⟩
      exact ⟨fun ha => absurd (ho.symm.trans ha.1) h20, fun ha => absurd ha.1 h20⟩
  · rw [if_neg hl]
    exact ⟨s, rfl, hr, fun sum => Iff.rfl⟩

/-- Only a 21st part makes a state expect the 20th. -/
theorem scan_long (hr : s.Reachable) (hend : ¬ e.IsEnd) (hshort : ¬ e.IsShort)
    (h : ¬ ∃ sum, s.Armed sum ∧ e.IsPart20 sum) :
    ∃ s', s.scan e = .ok (.skipped s') ∧ s'.Reachable ∧
      ∀ sum, s'.Armed sum ↔ e.IsPart21 ∧ e.checksum = sum := by
  unfold scan
  rw [if_neg hend]
  have hempty : ¬ e.IsPart21 → ∀ sum, empty.Armed sum ↔ e.IsPart21 ∧ e.checksum = sum :=
    fun hp sum => ⟨fun ha => absurd ha (not_armed_empty sum), fun hp' => absurd hp'.1 hp⟩
  by_cases hun : e.IsUnused
  · rw [if_pos hun]
    exact ⟨_, rfl, reachable_empty, hempty (fun hp => hp.2.1 hun)⟩
  have hlfn : e.isLFNEntry = true := by
    cases hl : e.isLFNEntry
    · exact absurd ⟨hend, hun, hl⟩ hshort
    · rfl
  rw [if_neg hun, if_pos hlfn]
  by_cases hflag : e.ordinal &&& directoryEntryLastLFNBit = 0
  · have hp21 : ¬ e.IsPart21 := fun hp => by rw [hp.2.2.2.1] at hflag; exact absurd hflag (by decide)
    obtain ⟨r, hok, hr1⟩ := applyLFNEntry_ok hr hend hflag
      (fun h' => h ⟨s.checksum, ⟨h'.1, rfl⟩, hend, hun, hlfn, h'.2⟩)
    rw [if_neg (by simp [Dirent.isLastLFNEntry, hflag]), hok]
    refine ⟨_, rfl, ?_⟩
    cases hv : r.1
    · exact ⟨reachable_empty, hempty hp21⟩
    · have hle := hr.ordinal_le
      have hle' := hr.length_le
      obtain ⟨ho, hl⟩ := hr1 hv
      simp only [if_true]
      refine ⟨⟨by omega, by omega, by omega⟩, fun sum => ?_⟩
      exact ⟨fun ha => absurd ha.1 (by omega), fun hp' => absurd hp'.1 hp21⟩
  · obtain ⟨hle, hiff⟩ := applyLast_ordinal hflag
    rw [if_pos (by simp [Dirent.isLastLFNEntry, hlfn, hflag])]
    have hpart : (empty.applyLastLFNEntry e).2.ordinal = 20 ↔ e.IsPart21 :=
      hiff.trans ⟨fun ho => ⟨hend, hun, hlfn, ho⟩, fun hp => hp.2.2.2⟩
    refine ⟨_, rfl, ⟨length_applyLast e, hle, fun ho => (applyLast_of_part21 (hpart.mp ho)).1⟩, fun sum => ?_⟩
    constructor
    · intro ⟨ho, hc⟩
      have hp := hpart.mp ho
      exact ⟨hp, (applyLast_of_part21 hp).2 ▸ hc⟩
    · intro ⟨hp, hc⟩
      exact ⟨hpart.mpr hp, (applyLast_of_part21 hp).2.trans hc⟩

/-- Whether the run over `es` will write outside of the array. -/
def Fails (s : LfnState) (es : List Dirent) : Prop := Overruns es ∨ ∃ sum, s.Armed sum ∧ Reaches20 sum es

theorem not_fails_nil (s : LfnState) : ¬ s.Fails [] := by
  rintro (h | ⟨sum, -, h⟩) <;> cases h

theorem not_fails_of_isEnd (h : e.IsEnd) : ¬ s.Fails (e :: es) := by
  rintro (h' | ⟨sum, -, h'⟩)
  · cases h' with
    | here hp => exact hp.1 h
    | later hn => exact hn h
  · cases h' with
    | here hp => exact hp.1 h
    | short hs => exact hs.1 h

theorem fails_cons_short (h : e.IsShort) (ha : ∀ sum, s'.Armed sum ↔ s.Armed sum) :
    s.Fails (e :: es) ↔ s'.Fails es := by
  constructor
  · rintro (h' | ⟨sum, hs, h'⟩)
    · cases h' with
      | here hp => exact absurd h.2.2 (by simp [hp.2.2.1])
      | later _ h' => exact .inl h'
    · cases h' with
      | here hp => exact absurd h.2.2 (by simp [hp.2.2.1])
      | short _ h' => exact .inr ⟨sum, (ha sum).mpr hs, h'⟩
  · rintro (h' | ⟨sum, hs, h'⟩)
    · exact .inl (.later h.1 h')
    · exact .inr ⟨sum, (ha sum).mp hs, .short h h'⟩

theorem fails_cons_long (hend : ¬ e.IsEnd) (hshort : ¬ e.IsShort) (h : ¬ ∃ sum, s.Armed sum ∧ e.IsPart20 sum)
    (ha : ∀ sum, s'.Armed sum ↔ e.IsPart21 ∧ e.checksum = sum) : s.Fails (e :: es) ↔ s'.Fails es := by
  constructor
  · rintro (h' | ⟨sum, hs, h'⟩)
    · cases h' with
      | here hp h' => exact .inr ⟨e.checksum, (ha _).mpr ⟨hp, rfl⟩, h'⟩
      | later _ h' => exact .inl h'
    · cases h' with
      | here hp => exact absurd ⟨sum, hs, hp⟩ h
      | short hs => exact absurd hs hshort
  · rintro (h' | ⟨sum, hs, h'⟩)
    · exact .inl (.later hend h')
    · obtain ⟨hp, rfl⟩ := (ha sum).mp hs
      exact .inl (.here hp h')

/-- The run over the entries writes outside of the array exactly when it reaches the
20th part of a name whose 21st part was too long. -/
theorem process_spec (hr : s.Reachable) (es : List Dirent) :
    (s.Fails es → s.process es = .error .outOfBounds) ∧
      (¬ s.Fails es → ∃ s', s.process es = .ok s' ∧ s'.length ≤ 255) := by
  induction es generalizing s with
  | nil => exact ⟨fun h => absurd h (not_fails_nil s), fun _ => ⟨s, rfl, hr.length_le⟩⟩
  | cons e es ih =>
      by_cases hend : e.IsEnd
      · have hscan : s.scan e = .ok .finished := if_pos hend
        rw [process, hscan]
        exact ⟨fun h => absurd h (not_fails_of_isEnd hend), fun _ => ⟨s, rfl, hr.length_le⟩⟩
      by_cases hshort : e.IsShort
      · obtain ⟨s', hscan, hr', ha⟩ := scan_short hr hshort
        rw [process, hscan, fails_cons_short hshort ha]
        exact ih hr'
      by_cases hp : ∃ sum, s.Armed sum ∧ e.IsPart20 sum
      · obtain ⟨sum, hs, hp⟩ := hp
        refine ⟨fun _ => ?_, fun h => absurd (.inr ⟨sum, hs, .here hp⟩) h⟩
        have hov := applyLFNEntry_overrun (hs.2.symm ▸ hp) hs.1
        have hflag : (20 : UInt8) &&& directoryEntryLastLFNBit = 0 := by decide
        have hlast : e.isLastLFNEntry = false := by
          simp [Dirent.isLastLFNEntry, hp.2.2.2.1, hflag]
        have hscan : s.scan e = .error .outOfBounds := by
          rw [scan, if_neg hend, if_neg hp.2.1, if_pos hp.2.2.1, if_neg (by simp [hlast]), hov]
          rfl
        rw [process, hscan]
        rfl
      · obtain ⟨s', hscan, hr', ha⟩ := scan_long hr hend hshort hp
        rw [process, hscan, fails_cons_long hend hshort hp ha]
        exact ih hr'

end LfnState

theorem Reaches20.append {sum : UInt8} {es : List Dirent} (h : Reaches20 sum es) (ds : List Dirent) :
    Reaches20 sum (es ++ ds) := by
  induction h with
  | here hp => exact .here hp
  | short hs _ ih => exact .short hs ih

theorem Overruns.append {es : List Dirent} (h : Overruns es) (ds : List Dirent) : Overruns (es ++ ds) := by
  induction h with
  | here hp hr => exact .here hp (hr.append ds)
  | later hn _ ih => exact .later hn ih

/-- The parsing of long names is memory-safe exactly on the directories that do not
hold a rejected 21st part with a matching 20th part behind it. -/
theorem memorySafe_iff (es : List Dirent) : MemorySafe es ↔ ¬ Overruns es := by
  have hfails (front : List Dirent) : LfnState.empty.Fails front ↔ Overruns front :=
    ⟨fun h => h.resolve_right (fun ⟨sum, ha, _⟩ => LfnState.not_armed_empty sum ha), .inl⟩
  constructor
  · intro h ho
    obtain ⟨s, hs, -⟩ := h es (List.prefix_refl es)
    have := (LfnState.process_spec LfnState.reachable_empty es).1 ((hfails es).mpr ho)
    rw [hs] at this
    cases this
  · rintro h front ⟨back, rfl⟩
    exact (LfnState.process_spec LfnState.reachable_empty front).2
      (fun hf => h (((hfails front).mp hf).append back))

/-- A long-name entry with the given ordinal, and zeros otherwise. -/
def Dirent.part (ordinal : UInt8) : Dirent :=
  ⟨((Vector.replicate 32 0).set 0 ordinal).set 11 attributeLFN⟩

theorem not_memorySafe : ¬ MemorySafe [Dirent.part 0x55, Dirent.part 20] := by
  intro h
  obtain ⟨s, hs, -⟩ := h _ (List.prefix_refl _)
  have hrun : LfnState.empty.process [Dirent.part 0x55, Dirent.part 20] = .error .outOfBounds := by rfl
  rw [hrun] at hs
  cases hs

end XviOs.Fat
