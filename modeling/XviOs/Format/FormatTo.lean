import XviOs.Format.FormatInteger

namespace XviOs.Format

section Formatters

variable {I D : Type} (o : OutputIterator I D) (K : IntType) (args : List Arg) (spec : FormatSpec) (out : I × D)

def formatStringView (s : List CharT) : I × D :=
  doOutput o spec out (if spec.precision = .none then s else s.take spec.precisionVal)

def formatBool (b : Bool) : I × D := formatStringView o spec out ((if b then "true" else "false").toList.map lit)

/-- The view ends at the first NUL, so that a NUL is not put out. -/
def formatChar (c : CharT) : I × D := doOutput o spec out (if c = 0 then [] else [c])

/-- `std::char_traits::length`, which reads up to the NUL -/
def strLength : List CharT → Result Nat
  | [] => .error .undefined
  | c :: memory => if c = 0 then .ok 0 else (· + 1) <$> strLength memory

/-- `std::char_traits::find` for the NUL in the first `n` characters -/
def findNul : Nat → List CharT → Result (Option Nat)
  | 0, _ => .ok none
  | _ + 1, [] => .error .undefined
  | n + 1, c :: memory => if c = 0 then .ok (some 0) else Option.map (· + 1) <$> findNul n memory

def cstringLength (memory : List CharT) : Result Nat :=
  if spec.precision = .none then strLength memory
  else (fun found => found.getD spec.precisionVal) <$> findNul spec.precisionVal memory

def formatCstring (memory : List CharT) : Result (I × D) := do
  let length ← cstringLength spec memory
  return doOutput o spec out (memory.take length)

def formatPointer (address : Nat) : Result (I × D) :=
  formatInteger o sizeT { spec with altForm := true, type := .x } out address

def boolFormatter (b : Bool) : Result (I × D) := do
  let spec ← prepare .bool args spec
  match spec.type with
  | .s => return formatBool o spec out b
  | .b | .B | .d | .o | .x | .X => formatInteger o ⟨false, 8, le_refl 8⟩ spec out (if b then 1 else 0)
  | _ => formatError "invalid presentation type for bool argument"

def charFormatter (c : CharT) : Result (I × D) := do
  let spec ← prepare .char args spec
  match spec.type with
  | .c => return formatChar o spec out c
  | .b | .B | .d | .o | .x | .X => formatInteger o K spec out c
  | _ => formatError "invalid presentation type for a character-type argument"

def integerFormatter (T : IntType) (n : T.Value) : Result (I × D) := do
  let spec ← prepare .integer args spec
  match spec.type with
  | .c =>
    if K.Holds n then return formatChar o spec out n
    else formatError "numeric value outside range of valid character values"
  | .b | .B | .d | .o | .x | .X => formatInteger o T spec out n
  | _ => formatError "invalid presentation type for an integer-type argument"

def cstringFormatter (memory : List CharT) : Result (I × D) := do
  let spec ← prepare .cstring args spec
  match spec.type with
  | .s => formatCstring o spec out memory
  | _ => formatError "invalid presentation type for a string-type argument"

def stringViewFormatter (s : List CharT) : Result (I × D) := do
  let spec ← prepare .stringView args spec
  match spec.type with
  | .s => return formatStringView o spec out s
  | _ => formatError "invalid presentation type for a string-type argument"

def pointerFormatter (address : Nat) : Result (I × D) := do
  let spec ← prepare .voidPtr args spec
  match spec.type with
  | .p => formatPointer o spec out address
  | _ => formatError "invalid presentation type for a pointer argument"

/-- The formatter for the stored type of an argument. The one for floating-point types puts nothing out. -/
def format : Arg → Result (I × D)
  | .bool b => boolFormatter o args spec out b
  | .char c => charFormatter o K args spec out c
  | .integer T n => integerFormatter o K args spec out T n
  | .cstring memory => cstringFormatter o args spec out memory
  | .stringView s => stringViewFormatter o args spec out s
  | .voidPtr address => pointerFormatter o args spec out address
  | .floating | .handle _ => .ok out

end Formatters

section ParseAndFormat

variable {I D : Type} (o : OutputIterator I D) (K : IntType) (args : List Arg)

/-- The visitor of `__parse_and_format_to`: parse the specification and format the argument. -/
def visit (pc : ParseContext) (out : I × D) : Arg → Result ((I × D) × ParseContext)
  | .handle format => do
    let (text, pc) ← format pc
    return (o.copy text out, pc)
  | arg => do
    let (spec, pc) ← parse pc
    let out ← format o K args spec out arg
    return (out, pc)

/-- The index of the argument that a field is for. -/
def argIndex (info : ReplacementFieldInfo) (pc : ParseContext) : Result (Nat × ParseContext) :=
  if info.argIdType = .explicit then do return (info.argId, ← pc.checkArgId) else pc.takeArgId

theorem length_scanField {s : List CharT} : ∀ {depth : Nat} {field rest : List CharT},
    scanField depth s = .ok (field, rest) → field.length + rest.length = s.length := by
  induction s with
  | nil =>
    intro depth field rest h
    cases h
  | cons c s ih =>
    intro depth field rest h
    have hnext : ∀ depth', (scanField depth' s >>= fun p => .ok (c :: p.1, p.2)) = .ok (field, rest) →
        field.length + rest.length = (c :: s).length := by
      intro depth' hbind
      obtain ⟨⟨field', rest'⟩, hscan, hok⟩ := bind_eq_ok.mp hbind
      obtain ⟨rfl, rfl⟩ := Prod.mk.inj (Except.ok.inj hok)
      have hlength := ih hscan
      simp only [List.length_cons]
      omega
    rw [scanField] at h
    split_ifs at h
    · exact hnext _ h
    · obtain ⟨rfl, rfl⟩ := Prod.mk.inj (Except.ok.inj h)
      simp only [List.length_cons, List.length_nil]
      omega
    · exact hnext _ h
    · exact hnext _ h

/-- The scanner loses no character. -/
theorem length_findNext {fmt : List CharT} : ∀ {before field rest : List CharT},
    findNextReplacementField fmt = .ok (before, field, rest) →
      before.length + field.length + rest.length = fmt.length := by
  induction fmt with
  | nil =>
    intro before field rest h
    obtain ⟨rfl, hrest⟩ := Prod.mk.inj (Except.ok.inj h)
    obtain ⟨rfl, rfl⟩ := Prod.mk.inj hrest
    rfl
  | cons c s ih =>
    intro before field rest h
    rw [findNextReplacementField.eq_def] at h
    simp only at h
    split at h
    · obtain ⟨⟨before', field', rest'⟩, hfind, hok⟩ := bind_eq_ok.mp h
      obtain ⟨rfl, hrest⟩ := Prod.mk.inj (Except.ok.inj hok)
      obtain ⟨rfl, rfl⟩ := Prod.mk.inj hrest
      have hlength := ih hfind
      simp only [List.length_cons]
      omega
    · cases s with
      | nil => cases h
      | cons next s' =>
        simp only at h
        split_ifs at h
        · obtain ⟨rfl, hrest⟩ := Prod.mk.inj (Except.ok.inj h)
          obtain ⟨rfl, rfl⟩ := Prod.mk.inj hrest
          simp only [List.length_cons, List.length_nil]
          omega
        · cases h
        · obtain ⟨⟨field', rest'⟩, hscan, hok⟩ := bind_eq_ok.mp h
          obtain ⟨rfl, hrest⟩ := Prod.mk.inj (Except.ok.inj hok)
          obtain ⟨rfl, rfl⟩ := Prod.mk.inj hrest
          have hlength := length_scanField hscan
          simp only [List.length_cons, List.length_nil] at hlength ⊢
          omega

/-- The loop of `__parse_and_format_to`. `out` is the iterator that the format context owns. -/
def formatLoop (fmt : List CharT) (pc : ParseContext) (out : I × D) : Result (I × D) :=
  if fmt = [] then .ok out
  else
    match _h : findNextReplacementField fmt with
    | .error fault => .error fault
    | .ok (before, field, rest) =>
      let here := o.copy before out
      -- the iterator past the text is not handed back to the context
      if _hfield : field = [] then .ok (out.1, here.2)
      else do
        let info ← parseReplacementField field
        if info.replacementChar ≠ 0 then formatLoop rest pc (o.put here info.replacementChar)
        else do
          let (index, pc) ← argIndex info pc
          match args[index]? with
          | none => formatError "visiting empty format arg"
          | some arg => do
            let (out, pc) ← visit o K args { pc with fmt := info.formatSpec } here arg
            formatLoop rest pc out
termination_by fmt.length
decreasing_by
  all_goals
    have hlength := length_findNext _h
    have hpos := List.length_pos_of_ne_nil _hfield
    omega

def parseAndFormatTo (out : I × D) (fmt : List CharT) : Result (I × D) := formatLoop o K args fmt { fmt := fmt } out

end ParseAndFormat

section Iterators

variable {I D : Type}

/-- An iterator whose state is all behind a pointer to the destination. -/
def typeErasedIter (o : OutputIterator I D) : OutputIterator Unit (I × D) where
  assign _ dest c := (dest.1, o.assign dest.1 dest.2 c)
  increment it dest := (it, o.increment dest.1 dest.2)

def measuringIter : OutputIterator Nat Unit where
  assign _ dest _ := dest
  increment count dest := (count + 1, dest)

def typeErasedParseAndFormatTo (o : OutputIterator I D) (K : IntType) (args : List Arg) (out : I × D)
    (fmt : List CharT) : Result (I × D) :=
  Prod.snd <$> parseAndFormatTo (typeErasedIter o) K args ((), out) fmt

def vformat (K : IntType) (args : List Arg) (fmt : List CharT) : Result (List CharT) :=
  Prod.snd <$> typeErasedParseAndFormatTo backInserter K args ((), []) fmt

def vformattedSize (K : IntType) (args : List Arg) (fmt : List CharT) : Result Nat :=
  Prod.fst <$> parseAndFormatTo measuringIter K args (0, ()) fmt

end Iterators

section Emits

/-- Through every iterator the same characters are put out, or the same fault ends the call. The iterator that is given
back has not moved past the last ones, `lost`. -/
def EmitsBut (lost : List CharT) (f : ∀ I D : Type, OutputIterator I D → I × D → Result (I × D)) : Prop :=
  ∃ r : Result (List CharT), ∀ (I D : Type) (o : OutputIterator I D) (out : I × D),
    f I D o out = r >>= fun text => .ok ((o.copy text out).1, (o.copy (text ++ lost) out).2)

abbrev Emits (f : ∀ I D : Type, OutputIterator I D → I × D → Result (I × D)) : Prop := EmitsBut [] f

variable {lost : List CharT} {f g : ∀ I D : Type, OutputIterator I D → I × D → Result (I × D)}

theorem Emits.copy (text : List CharT) : Emits fun _ _ o out => .ok (o.copy text out) := by
  refine ⟨.ok text, fun I D o out => ?_⟩
  rw [ok_bind, List.append_nil]

theorem Emits.exists_copy (h : Emits f) : ∃ r : Result (List CharT), ∀ (I D : Type) (o : OutputIterator I D)
    (out : I × D), f I D o out = r >>= fun text => .ok (o.copy text out) := by
  obtain ⟨r, hr⟩ := h
  refine ⟨r, fun I D o out => ?_⟩
  rw [hr]
  congr 1
  funext text
  rw [List.append_nil]

theorem EmitsBut.fail (fault : Fault) : EmitsBut lost fun _ _ _ _ => .error fault :=
  ⟨.error fault, fun _ _ _ _ => rfl⟩

theorem EmitsBut.bind {α : Type} (x : Result α) {f : α → ∀ I D : Type, OutputIterator I D → I × D → Result (I × D)}
    (h : ∀ a, EmitsBut lost (f a)) : EmitsBut lost fun I D o out => x >>= fun a => f a I D o out := by
  cases x with
  | error fault => exact EmitsBut.fail fault
  | ok a => exact h a

theorem EmitsBut.ite (c : Prop) [Decidable c] (hf : EmitsBut lost f) (hg : EmitsBut lost g) :
    EmitsBut lost fun I D o out => if c then f I D o out else g I D o out := by
  by_cases hc : c
  · simp only [if_pos hc]
    exact hf
  · simp only [if_neg hc]
    exact hg

/-- What is put out before comes in front. -/
theorem EmitsBut.after (h : EmitsBut lost f) (before : List CharT) :
    EmitsBut lost fun I D o out => f I D o (o.copy before out) := by
  obtain ⟨r, hr⟩ := h
  refine ⟨(before ++ ·) <$> r, fun I D o out => ?_⟩
  apply (hr I D o (o.copy before out)).trans
  cases r with
  | error fault => rfl
  | ok text =>
    change Except.ok _ = Except.ok _
    rw [← o.copy_append, ← o.copy_append, List.append_assoc]

/-- The fill characters and the text between them. -/
theorem doOutput_copy (spec : FormatSpec) (text : List CharT) : ∃ text', ∀ (I D : Type) (o : OutputIterator I D)
    (out : I × D), doOutput o spec out text = o.copy text' out := by
  refine ⟨List.replicate (splitFill spec.align (fillSize spec text.length)).1.toNat spec.fillChar ++ text ++
    List.replicate (splitFill spec.align (fillSize spec text.length)).2.toNat spec.fillChar, fun I D o out => ?_⟩
  simp only [doOutput, o.fillN_eq, o.copy_append]

theorem doOutput_emits (spec : FormatSpec) (text : List CharT) :
    Emits fun _ _ o out => .ok (doOutput o spec out text) := by
  obtain ⟨text', htext'⟩ := doOutput_copy spec text
  simp only [htext']
  exact Emits.copy text'

theorem putSign_copy (sign : CharT) : ∃ text, ∀ (I D : Type) (o : OutputIterator I D) (out : I × D),
    putSign o sign out = (o.copy text out, text.length) := by
  by_cases hsign : sign = 0
  · exact ⟨[], fun I D o out => if_neg (not_not_intro hsign)⟩
  · exact ⟨[sign], fun I D o out => if_pos hsign⟩

theorem putPrefix_copy (pre : Option (CharT × CharT)) : ∃ text, ∀ (I D : Type) (o : OutputIterator I D)
    (out : (I × D) × Nat), putPrefix o pre out = (o.copy text out.1, out.2 + text.length) := by
  rcases pre with _ | ⟨c0, c1⟩
  · exact ⟨[], fun I D o out => rfl⟩
  · by_cases hc : c1 = 0
    · exact ⟨[c0], fun I D o out => if_neg (not_not_intro hc)⟩
    · exact ⟨[c0, c1], fun I D o out => if_pos hc⟩

theorem formatInteger_emits (T : IntType) (spec : FormatSpec) (n : Int) :
    Emits fun _ _ o out => formatInteger o T spec out n := by
  apply EmitsBut.bind (signOf T spec n)
  rintro ⟨sign, un⟩
  apply EmitsBut.bind (writeMagnitude spec.type un (Buffer.new T))
  intro b
  apply EmitsBut.ite
  · obtain ⟨signed, hsigned⟩ := putSign_copy sign
    obtain ⟨prefixed, hprefixed⟩ := putPrefix_copy (prefixOf spec n)
    simp only [hsigned, hprefixed, ← OutputIterator.copy_append]
    obtain ⟨text, htext⟩ := doOutput_copy { spec with
      widthVal := if spec.widthVal > signed.length + prefixed.length then
        spec.widthVal - (signed.length + prefixed.length) else 1
      fillChar := lit '0' } b.view
    simp only [htext, ← OutputIterator.copy_append]
    exact Emits.copy _
  · apply EmitsBut.bind (pushPrefix (prefixOf spec n) b)
    intro b
    apply EmitsBut.bind (pushSign sign b)
    intro b
    exact doOutput_emits spec b.view

theorem formatStringView_emits (spec : FormatSpec) (s : List CharT) :
    Emits fun _ _ o out => .ok (formatStringView o spec out s) := doOutput_emits spec _

theorem formatCstring_emits (spec : FormatSpec) (memory : List CharT) :
    Emits fun _ _ o out => formatCstring o spec out memory := by
  apply EmitsBut.bind (cstringLength spec memory)
  intro length
  exact doOutput_emits spec _

variable (K : IntType) (args : List Arg)

/-- Each formatter of the library puts out its characters through whatever iterator it is given. -/
theorem format_emits (spec : FormatSpec) (arg : Arg) : Emits fun _ _ o out => format o K args spec out arg := by
  cases arg with
  | bool b =>
    apply EmitsBut.bind (prepare .bool args spec)
    intro spec
    cases spec.type with
    | s => exact formatStringView_emits spec _
    | b | B | d | o | x | X => exact formatInteger_emits _ spec _
    | _ => exact EmitsBut.fail _
  | char c =>
    apply EmitsBut.bind (prepare .char args spec)
    intro spec
    cases spec.type with
    | c => exact doOutput_emits spec _
    | b | B | d | o | x | X => exact formatInteger_emits _ spec _
    | _ => exact EmitsBut.fail _
  | integer T n =>
    apply EmitsBut.bind (prepare .integer args spec)
    intro spec
    cases spec.type with
    | c => exact EmitsBut.ite _ (doOutput_emits spec _) (EmitsBut.fail _)
    | b | B | d | o | x | X => exact formatInteger_emits _ spec _
    | _ => exact EmitsBut.fail _
  | cstring memory =>
    apply EmitsBut.bind (prepare .cstring args spec)
    intro spec
    cases spec.type with
    | s => exact formatCstring_emits spec memory
    | _ => exact EmitsBut.fail _
  | stringView s =>
    apply EmitsBut.bind (prepare .stringView args spec)
    intro spec
    cases spec.type with
    | s => exact formatStringView_emits spec s
    | _ => exact EmitsBut.fail _
  | voidPtr address =>
    apply EmitsBut.bind (prepare .voidPtr args spec)
    intro spec
    cases spec.type with
    | p => exact formatInteger_emits _ _ _
    | _ => exact EmitsBut.fail _
  | floating => exact Emits.copy []
  | handle format => exact Emits.copy []

/-- The same for the visitor, which also gives back the parse context. -/
theorem visit_emits (pc : ParseContext) (arg : Arg) : ∃ r : Result (List CharT × ParseContext),
    ∀ (I D : Type) (o : OutputIterator I D) (out : I × D),
      visit o K args pc out arg = r >>= fun q => .ok (o.copy q.1 out, q.2) := by
  by_cases hhandle : ∃ format, arg = .handle format
  · obtain ⟨format, rfl⟩ := hhandle
    exact ⟨format pc, fun I D o out => rfl⟩
  · have hvisit : ∀ (I D : Type) (o : OutputIterator I D) (out : I × D), visit o K args pc out arg =
        parse pc >>= fun p => format o K args p.1 out arg >>= fun out => .ok (out, p.2) := by
      intro I D o out
      cases arg with
      | handle format => exact absurd ⟨format, rfl⟩ hhandle
      | _ => rfl
    choose r hr using fun spec => (format_emits K args spec arg).exists_copy
    refine ⟨parse pc >>= fun p => r p.1 >>= fun text => .ok (text, p.2), fun I D o out => ?_⟩
    rw [hvisit]
    simp only [hr, bind_assoc]
    rfl

end Emits

section Loop

/-- The literal text that a format string ends with, after its last escape or replacement field. -/
def literalEnd (fmt : List CharT) : List CharT :=
  match _h : findNextReplacementField fmt with
  | .error _ => []
  | .ok (before, field, rest) => if _hfield : field = [] then before else literalEnd rest
termination_by fmt.length
decreasing_by
  have hlength := length_findNext _h
  have hpos := List.length_pos_of_ne_nil _hfield
  omega

variable (K : IntType) (args : List Arg)

section Equations

variable {I D : Type} {o : OutputIterator I D} {K args} {fmt before field rest : List CharT} {pc : ParseContext}
  {out : I × D}

theorem formatLoop_nil : formatLoop o K args [] pc out = .ok out := by
  rw [formatLoop, if_pos rfl]

theorem formatLoop_error (hfmt : fmt ≠ []) {fault : Fault} (h : findNextReplacementField fmt = .error fault) :
    formatLoop o K args fmt pc out = .error fault := by
  rw [formatLoop, if_neg hfmt]
  split
  · next h' => exact congrArg Except.error (Except.error.inj (h'.symm.trans h))
  · next h' => cases h'.symm.trans h

theorem formatLoop_last (hfmt : fmt ≠ []) (h : findNextReplacementField fmt = .ok (before, [], rest)) :
    formatLoop o K args fmt pc out = .ok (out.1, (o.copy before out).2) := by
  rw [formatLoop, if_neg hfmt]
  split
  · next h' => cases h'.symm.trans h
  · next h' =>
    obtain ⟨rfl, heq⟩ := Prod.mk.inj (Except.ok.inj (h'.symm.trans h))
    obtain ⟨rfl, rfl⟩ := Prod.mk.inj heq
    rw [dif_pos rfl]

theorem formatLoop_field (hfield : field ≠ []) (h : findNextReplacementField fmt = .ok (before, field, rest)) :
    formatLoop o K args fmt pc out = parseReplacementField field >>= fun info =>
      if info.replacementChar ≠ 0 then formatLoop o K args rest pc (o.put (o.copy before out) info.replacementChar)
      else argIndex info pc >>= fun p =>
        match args[p.1]? with
        | none => formatError "visiting empty format arg"
        | some arg => visit o K args { p.2 with fmt := info.formatSpec } (o.copy before out) arg >>= fun q =>
          formatLoop o K args rest q.2 q.1 := by
  have hfmt : fmt ≠ [] := by
    rintro rfl
    obtain ⟨-, heq⟩ := Prod.mk.inj (Except.ok.inj h)
    exact hfield (Prod.mk.inj heq).1.symm
  rw [formatLoop, if_neg hfmt]
  split
  · next h' => cases h'.symm.trans h
  · next h' =>
    obtain ⟨rfl, heq⟩ := Prod.mk.inj (Except.ok.inj (h'.symm.trans h))
    obtain ⟨rfl, rfl⟩ := Prod.mk.inj heq
    rw [dif_neg hfield]

theorem literalEnd_last (h : findNextReplacementField fmt = .ok (before, [], rest)) : literalEnd fmt = before := by
  rw [literalEnd]
  split
  · next h' => cases h'.symm.trans h
  · next h' =>
    obtain ⟨rfl, heq⟩ := Prod.mk.inj (Except.ok.inj (h'.symm.trans h))
    obtain ⟨rfl, rfl⟩ := Prod.mk.inj heq
    rw [dif_pos rfl]

theorem literalEnd_field (hfield : field ≠ []) (h : findNextReplacementField fmt = .ok (before, field, rest)) :
    literalEnd fmt = literalEnd rest := by
  rw [literalEnd]
  split
  · next h' => cases h'.symm.trans h
  · next h' =>
    obtain ⟨rfl, heq⟩ := Prod.mk.inj (Except.ok.inj (h'.symm.trans h))
    obtain ⟨rfl, rfl⟩ := Prod.mk.inj heq
    rw [dif_neg hfield]

end Equations

/-- The loop delivers the whole text. The iterator that it gives back has not moved past the literal end. -/
theorem formatLoop_emits (fmt : List CharT) : ∀ pc : ParseContext,
    EmitsBut (literalEnd fmt) fun _ _ o out => formatLoop o K args fmt pc out := by
  induction hn : fmt.length using Nat.strong_induction_on generalizing fmt with
  | _ n ih =>
    intro pc
    by_cases hfmt : fmt = []
    · have hend : literalEnd [] = [] := literalEnd_last rfl
      rw [hfmt, hend]
      simp only [formatLoop_nil]
      exact Emits.copy []
    · cases hfind : findNextReplacementField fmt with
      | error fault =>
        simp only [formatLoop_error hfmt hfind]
        exact EmitsBut.fail fault
      | ok p =>
        obtain ⟨before, field, rest⟩ := p
        by_cases hfield : field = []
        · rw [hfield] at hfind
          rw [literalEnd_last hfind]
          simp only [formatLoop_last hfmt hfind]
          exact ⟨.ok [], fun I D o out => rfl⟩
        · have hlength := length_findNext hfind
          have hpos := List.length_pos_of_ne_nil hfield
          have hrest := ih rest.length (by omega) rest rfl
          rw [literalEnd_field hfield hfind]
          simp only [formatLoop_field hfield hfind]
          apply EmitsBut.bind (parseReplacementField field)
          intro info
          apply EmitsBut.ite
          · have hafter := (hrest pc).after (before ++ [info.replacementChar])
            simp only [OutputIterator.copy_append] at hafter
            exact hafter
          · apply EmitsBut.bind (argIndex info pc)
            rintro ⟨index, pc'⟩
            cases args[index]? with
            | none => exact EmitsBut.fail _
            | some arg =>
              obtain ⟨r, hr⟩ := visit_emits K args { pc' with fmt := info.formatSpec } arg
              simp only [hr, bind_assoc]
              apply EmitsBut.bind r
              rintro ⟨text, pc''⟩
              have hafter := (hrest pc'').after (before ++ text)
              simp only [OutputIterator.copy_append] at hafter
              exact hafter

end Loop

section Iterators

variable {I D : Type}

theorem copy_typeErased (o : OutputIterator I D) (text : List CharT) : ∀ out : I × D,
    (typeErasedIter o).copy text ((), out) = ((), o.copy text out) := by
  induction text with
  | nil =>
    intro out
    rfl
  | cons c text ih =>
    intro out
    rw [OutputIterator.copy_cons, OutputIterator.copy_cons, ← ih]
    rfl

theorem copy_measuring (text : List CharT) :
    ∀ count, measuringIter.copy text (count, ()) = (count + text.length, ()) := by
  induction text with
  | nil =>
    intro count
    rfl
  | cons c text ih =>
    intro count
    have hput : measuringIter.put (count, ()) c = (count + 1, ()) := rfl
    rw [OutputIterator.copy_cons, hput, ih, List.length_cons, Nat.add_assoc, Nat.add_comm 1]

variable (K : IntType) (args : List Arg) (fmt text : List CharT)

/-- Every iterator is given the text and comes back past it, behind a pointer or not, and `formatted_size` counts it. -/
def DeliversAlike : Prop :=
  (∀ (I D : Type) (o : OutputIterator I D) (out : I × D),
    parseAndFormatTo o K args out fmt = .ok (o.copy text out) ∧
      typeErasedParseAndFormatTo o K args out fmt = .ok (o.copy text out)) ∧
    vformattedSize K args fmt = .ok text.length

/-- What a successful `format` says of every other call with the same string and arguments. -/
theorem parseAndFormatTo_eq (h : vformat K args fmt = .ok text) : ∃ moved, text = moved ++ literalEnd fmt ∧
    ∀ (I D : Type) (o : OutputIterator I D) (out : I × D),
      parseAndFormatTo o K args out fmt = .ok ((o.copy moved out).1, (o.copy text out).2) := by
  obtain ⟨r, hr⟩ := formatLoop_emits K args fmt { fmt := fmt }
  simp only at hr
  rw [vformat, typeErasedParseAndFormatTo, parseAndFormatTo, hr] at h
  cases r with
  | error fault => cases h
  | ok moved =>
    rw [ok_bind, copy_typeErased, copy_typeErased, copy_backInserter, copy_backInserter] at h
    have htext : moved ++ literalEnd fmt = text := Except.ok.inj h
    refine ⟨moved, htext.symm, fun I D o out => ?_⟩
    rw [parseAndFormatTo, hr, ok_bind, htext]

/-- A call through the type-erased iterator is right whatever the format string ends with. -/
theorem typeErasedParseAndFormatTo_eq (h : vformat K args fmt = .ok text) (o : OutputIterator I D) (out : I × D) :
    typeErasedParseAndFormatTo o K args out fmt = .ok (o.copy text out) := by
  obtain ⟨moved, -, hrun⟩ := parseAndFormatTo_eq K args fmt text h
  have hdest := congrArg Prod.snd (copy_typeErased o text out)
  rw [typeErasedParseAndFormatTo, hrun]
  exact congrArg Except.ok hdest

/-- When a format string formats without error to a text, every iterator gets that text and is left past it exactly
when the string does not end with literal text. -/
theorem deliversAlike_iff (h : vformat K args fmt = .ok text) :
    DeliversAlike K args fmt text ↔ literalEnd fmt = [] := by
  obtain ⟨moved, htext, hrun⟩ := parseAndFormatTo_eq K args fmt text h
  have hsize : vformattedSize K args fmt = .ok moved.length := by
    rw [vformattedSize, hrun, copy_measuring, Nat.zero_add]
    rfl
  constructor
  · rintro ⟨-, hcount⟩
    rw [hsize, htext, List.length_append] at hcount
    have hlength : moved.length = moved.length + (literalEnd fmt).length := Except.ok.inj hcount
    exact List.length_eq_zero_iff.mp (by omega)
  · intro hend
    rw [hend, List.append_nil] at htext
    refine ⟨fun I D o out => ⟨?_, typeErasedParseAndFormatTo_eq K args fmt text h o out⟩, ?_⟩
    · rw [hrun, htext]
    · rw [hsize, htext]

/-- `format("{}", "a")` -/
theorem deliversAlike_field : DeliversAlike IntType.int [.stringView [lit 'a']] [lit '{', lit '}'] [lit 'a'] ↔
    literalEnd [lit '{', lit '}'] = [] :=
  deliversAlike_iff IntType.int [.stringView [lit 'a']] [lit '{', lit '}'] [lit 'a'] (by
    have hfind : findNextReplacementField [lit '{', lit '}'] = .ok ([], [lit '{', lit '}'], []) := rfl
    rw [vformat, typeErasedParseAndFormatTo, parseAndFormatTo, formatLoop_field (by decide) hfind]
    simp only [formatLoop_nil]
    rfl)

/-- `formatted_size("a")` -/
theorem formattedSize_literal :
    vformat IntType.int [] [lit 'a'] = .ok [lit 'a'] ∧ vformattedSize IntType.int [] [lit 'a'] = .ok 0 := by
  have hfind : findNextReplacementField [lit 'a'] = .ok ([lit 'a'], [], []) := rfl
  constructor
  · rw [vformat, typeErasedParseAndFormatTo, parseAndFormatTo, formatLoop_last (by decide) hfind]
    rfl
  · rw [vformattedSize, parseAndFormatTo, formatLoop_last (by decide) hfind]
    rfl

end Iterators

end XviOs.Format
