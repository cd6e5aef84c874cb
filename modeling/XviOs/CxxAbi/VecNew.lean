import XviOs.CxxAbi.VecCtor

namespace XviOs.CxxAbi.VecCtor

open Library.ThrowingProgram

/-- Which of the functions of the ABI it is: those with a 2 pass the deallocation function no size. -/
inductive Form
  | unsized
  | sized
  deriving DecidableEq

def Form.arguments (form : Form) (p n : BitVec 64) : List (BitVec 64) :=
  match form with
  | .unsized => [p]
  | .sized => [p, n]

variable {ε : Type} (B : Behaviour ε)

/-- A block that is allocated, or `nullptr`. -/
def allocate (alloc size : BitVec 64) : Program ε (BitVec 64) := fun w =>
  match invoke B alloc [size] w with
  | (.ok p, w') => (.ok p, if p = 0 then w' else { w' with storage := Function.update w'.storage p (some (p, size)) })
  | (.error x, w') => (.error x, w')

/-- The deallocation function, in each form. -/
def deallocate (form : Form) (dealloc p n : BitVec 64) : Program ε Unit := do
  let _ ← invoke B dealloc (form.arguments p n)

/-- A pointer made from another one leads into the same block. -/
def derive (p q : BitVec 64) : Program ε Unit := fun w =>
  (.ok (), { w with storage := Function.update w.storage q (w.storage p) })

/-- The word at an address is in the block that the pointer leads into. -/
def World.Accessible (w : World) (p a : BitVec 64) : Prop :=
  match w.storage p with
  | none => False
  | some (start, size) => start.toNat ≤ a.toNat ∧ a.toNat + 8 ≤ start.toNat + size.toNat

instance (w : World) (p a : BitVec 64) : Decidable (w.Accessible p a) := by
  unfold World.Accessible
  split <;> infer_instance

def readWord (p a : BitVec 64) : Program ε (BitVec 64) := fun w =>
  if w.Accessible p a then (.ok (w.memory a), w) else (.error .undefined, w)

def writeWord (p a v : BitVec 64) : Program ε Unit := fun w =>
  if w.Accessible p a then (.ok (), { w with memory := Function.update w.memory a v }) else (.error .undefined, w)

/-- `catch (...)` around a call. -/
def catchAll (p : Program ε Unit) (handler : ε → Program ε Unit) : Program ε Unit := fun w =>
  match p w with
  | (.ok (), w') => (.ok (), w')
  | (.error (.threw e), w') => handler e w'
  | (.error x, w') => (.error x, w')

/-- The pointer behind the padding, in front of which the number of the elements is put. -/
def skipPadding (storagePtr paddingSize elementCount : BitVec 64) : Program ε (BitVec 64) :=
  if paddingSize > 0 then do
    let arrayPtr := storagePtr + paddingSize
    derive storagePtr arrayPtr
    writeWord arrayPtr (arrayPtr - 8) elementCount
    return arrayPtr
  else return storagePtr

/-- What is done in the storage that has been allocated. -/
def constructIn (form : Form) (elementCount elementSize paddingSize ctor dtor dealloc storagePtr storageSize : BitVec 64) :
    Program ε (BitVec 64) := do
  let arrayPtr ← skipPadding storagePtr paddingSize elementCount
  catchAll (vecCtor B arrayPtr elementCount.toNat elementSize ctor dtor) fun e => do
    deallocate B form dealloc storagePtr storageSize
    throw (.threw e)
  return arrayPtr

/-- `bad` is the exception `std::bad_array_new_length`. -/
def vecNew (form : Form) (bad : ε) (elementCount elementSize paddingSize ctor dtor alloc dealloc : BitVec 64) :
    Program ε (BitVec 64) :=
  -- the division by the element size
  if elementSize = 0 then throw .undefined
  else if BitVec.allOnes 64 / elementSize > elementCount then throw (.threw bad)
  else do
    let arraySize := elementCount * elementSize
    let storageSize := arraySize + paddingSize
    let storagePtr ← allocate B alloc storageSize
    if storagePtr = 0 then return 0
    else constructIn B form elementCount elementSize paddingSize ctor dtor dealloc storagePtr storageSize

def vecNew2 (bad : ε) (elementCount elementSize paddingSize ctor dtor alloc dealloc : BitVec 64) :
    Program ε (BitVec 64) :=
  vecNew B .unsized bad elementCount elementSize paddingSize ctor dtor alloc dealloc

def vecNew3 (bad : ε) (elementCount elementSize paddingSize ctor dtor alloc dealloc : BitVec 64) :
    Program ε (BitVec 64) :=
  vecNew B .sized bad elementCount elementSize paddingSize ctor dtor alloc dealloc

/-- The storage is as large as the sum of the padding, the number of the elements and the size of one. -/
def vecDelete (form : Form) (arrayPtr elementSize paddingSize dtor dealloc : BitVec 64) : Program ε Unit :=
  if dtor ≠ 0 then do
    let storagePtr := arrayPtr - paddingSize
    let elementCount ← readWord arrayPtr (arrayPtr - 8)
    let storageSize := paddingSize + elementCount + elementSize
    catchAll (vecDtor B arrayPtr elementCount.toNat elementSize dtor) fun e => do
      deallocate B form dealloc storagePtr storageSize
      throw (.threw e)
    deallocate B form dealloc storagePtr storageSize
  else deallocate B form dealloc arrayPtr 0

def vecDelete2 (arrayPtr elementSize paddingSize dtor dealloc : BitVec 64) : Program ε Unit :=
  vecDelete B .unsized arrayPtr elementSize paddingSize dtor dealloc

def vecDelete3 (arrayPtr elementSize paddingSize dtor dealloc : BitVec 64) : Program ε Unit :=
  vecDelete B .sized arrayPtr elementSize paddingSize dtor dealloc

section Calls

variable {B} {form : Form} {bad : ε} {count size padding ctor dtor alloc dealloc p n a : BitVec 64} {w w' : World}

theorem deallocate_outcome (B : Behaviour ε) (form : Form) (dealloc p n : BitVec 64) (w : World) :
    deallocate B form dealloc p n w = (.ok (), w.after [⟨dealloc, form.arguments p n⟩]) ∨
      ∃ e, deallocate B form dealloc p n w = (.error (.threw e), w.after [⟨dealloc, form.arguments p n⟩]) := by
  cases h : B w.calls ⟨dealloc, form.arguments p n⟩ with
  | ok v =>
    refine Or.inl (bind_ok (b := v) ?_)
    unfold invoke
    rw [h]
  | error e =>
    refine Or.inr ⟨e, bind_error ?_⟩
    unfold invoke
    rw [h]

theorem deallocate_world (B : Behaviour ε) (form : Form) (dealloc p n : BitVec 64) (w : World) :
    (deallocate B form dealloc p n w).2 = w.after [⟨dealloc, form.arguments p n⟩] := by
  obtain h | ⟨e, h⟩ := deallocate_outcome B form dealloc p n w
  · rw [h]
  · rw [h]

theorem catchAll_ok {q : Program ε Unit} {handler : ε → Program ε Unit} (h : q w = (.ok (), w')) :
    catchAll q handler w = (.ok (), w') := by
  unfold catchAll
  rw [h]

theorem catchAll_threw {q : Program ε Unit} {handler : ε → Program ε Unit} {e : ε} (h : q w = (.error (.threw e), w')) :
    catchAll q handler w = handler e w' := by
  unfold catchAll
  rw [h]

theorem catchAll_terminated {q : Program ε Unit} {handler : ε → Program ε Unit}
    (h : q w = (.error .terminated, w')) : catchAll q handler w = (.error .terminated, w') := by
  unfold catchAll
  rw [h]

/-- The exception goes on behind the deallocation, or another one from there. -/
theorem deallocate_throw (B : Behaviour ε) (form : Form) (dealloc p n : BitVec 64) (w : World) (e : ε) :
    ∃ e', (do
      deallocate B form dealloc p n
      throw (.threw e) : Program ε Unit) w = (.error (.threw e'), w.after [⟨dealloc, form.arguments p n⟩]) := by
  obtain h | ⟨e', h⟩ := deallocate_outcome B form dealloc p n w
  · exact ⟨e, bind_ok h⟩
  · exact ⟨e', bind_error h⟩

/-- The world in which the cookie has been written. -/
def withCookie (w : World) (p padding count : BitVec 64) : World :=
  if padding = 0 then w
  else
    { w with
      storage := Function.update w.storage (p + padding) (w.storage p)
      memory := Function.update w.memory (p + padding - 8) count }

theorem withCookie_calls (w : World) (p padding count : BitVec 64) : (withCookie w p padding count).calls = w.calls := by
  unfold withCookie
  split <;> rfl

theorem skipPadding_outcome (p padding count : BitVec 64) (w : World) :
    ((padding ≠ 0 → (withCookie w p padding count).Accessible (p + padding) (p + padding - 8)) ∧
      (skipPadding p padding count : Program ε (BitVec 64)) w = (.ok (p + padding), withCookie w p padding count)) ∨
      ∃ w', (skipPadding p padding count : Program ε (BitVec 64)) w = (.error .undefined, w') ∧ w'.calls = w.calls := by
  unfold skipPadding withCookie
  by_cases hpadding : padding = 0
  · subst hpadding
    have hsame : p + 0 = p := BitVec.add_zero p
    have hnot : ¬ (0 : BitVec 64) > 0 := by decide
    refine Or.inl ⟨fun hne => absurd rfl hne, ?_⟩
    rw [if_neg hnot, if_pos rfl, hsame]
    rfl
  · have hpos : padding > 0 := by
      rw [gt_iff_lt, BitVec.lt_def]
      exact Nat.pos_of_ne_zero fun hzero => hpadding (BitVec.eq_of_toNat_eq hzero)
    rw [if_pos hpos, if_neg hpadding]
    let w₁ : World := { w with storage := Function.update w.storage (p + padding) (w.storage p) }
    have hderive : (derive p (p + padding) : Program ε Unit) w = (.ok (), w₁) := rfl
    by_cases ha : w₁.Accessible (p + padding) (p + padding - 8)
    · refine Or.inl ⟨fun _ => ha, (bind_ok hderive).trans (bind_ok (b := ()) ?_)⟩
      exact if_pos ha
    · refine Or.inr ⟨w₁, (bind_ok hderive).trans (bind_error ?_), rfl⟩
      exact if_neg ha

/-- What has been done in the storage: there was no room for the cookie, or the elements are constructed, or they are
destroyed again and the storage is released, or the program has ended. -/
inductive Constructed (form : Form) (count size padding ctor dtor dealloc p n : BitVec 64) (w : World) :
    Except (Exit ε) (BitVec 64) × World → Prop
  | undefined (w' : World) (h : w'.calls = w.calls) : Constructed form count size padding ctor dtor dealloc p n w
      (.error .undefined, w')
  | done (h : padding ≠ 0 → (withCookie w p padding count).Accessible (p + padding) (p + padding - 8)) :
    Constructed form count size padding ctor dtor dealloc p n w
      (.ok (p + padding), (withCookie w p padding count).after
        (constructs ctor (fun k => [element (p + padding) size k]) count.toNat))
  | released (e : ε) (i : ℕ) (hi : i < count.toNat) : Constructed form count size padding ctor dtor dealloc p n w
      (.error (.threw e), (withCookie w p padding count).after
        (constructs ctor (fun k => [element (p + padding) size k]) (i + 1) ++ destroys (p + padding) size dtor i 0 ++
          [⟨dealloc, form.arguments p n⟩]))
  | terminated (w' : World) (cs : List Call) (h : w'.calls = w.calls ++ cs) :
    Constructed form count size padding ctor dtor dealloc p n w (.error .terminated, w')

theorem constructIn_outcome (B : Behaviour ε) (form : Form) (count size padding ctor dtor dealloc p n : BitVec 64)
    (w : World) : Constructed form count size padding ctor dtor dealloc p n w
      (constructIn B form count size padding ctor dtor dealloc p n w) := by
  obtain ⟨haccess, hskip⟩ | ⟨w', hskip, hcalls⟩ := skipPadding_outcome (ε := ε) p padding count w
  · have hunwinds := constructAll_unwinds B (p + padding) count.toNat size ctor dtor
      (fun k => [element (p + padding) size k]) (withCookie w p padding count)
    have heq : constructIn B form count size padding ctor dtor dealloc p n w = _ := bind_ok hskip
    rw [heq]
    cases hrun : vecCtor B (p + padding) count.toNat size ctor dtor (withCookie w p padding count) with
    | mk r w' =>
      match r, hrun with
      | .ok (), hrun =>
        obtain ⟨-, rfl⟩ := (hunwinds.returns w').mp hrun
        rw [bind_ok (catchAll_ok hrun)]
        exact .done haccess
      | .error (.threw e), hrun =>
        obtain ⟨i, hi, -, -, rfl⟩ := (hunwinds.threw e w').mp hrun
        obtain ⟨e', hthrow⟩ := deallocate_throw B form dealloc p n ((withCookie w p padding count).after
          (constructs ctor (fun k => [element (p + padding) size k]) (i + 1) ++ destroys (p + padding) size dtor i 0)) e
        rw [bind_error ((catchAll_threw hrun).trans hthrow), after_after]
        exact .released e' i hi
      | .error .terminated, hrun =>
        obtain ⟨i, hi, e, -, j, hj, e', -, rfl⟩ := (hunwinds.terminated w').mp hrun
        rw [bind_error (catchAll_terminated hrun)]
        exact .terminated _ _ (congrArg (· ++ _) (withCookie_calls w p padding count))
      | .error .undefined, hrun => exact absurd hrun (hunwinds.defined w')
  · have heq : constructIn B form count size padding ctor dtor dealloc p n w = _ := bind_error hskip
    rw [heq]
    exact .undefined w' hcalls

/-- The world in which a block has been allocated. -/
def withBlock (w : World) (alloc n p : BitVec 64) : World :=
  { w.after [⟨alloc, [n]⟩] with storage := Function.update w.storage p (some (p, n)) }

theorem allocate_error {e : ε} (h : B w.calls ⟨alloc, [n]⟩ = .error e) :
    allocate B alloc n w = (.error (.threw e), w.after [⟨alloc, [n]⟩]) := by
  unfold allocate invoke
  rw [h]

theorem allocate_null (h : B w.calls ⟨alloc, [n]⟩ = .ok 0) : allocate B alloc n w = (.ok 0, w.after [⟨alloc, [n]⟩]) := by
  unfold allocate invoke
  rw [h]
  rfl

theorem allocate_ok (h : B w.calls ⟨alloc, [n]⟩ = .ok p) (hp : p ≠ 0) :
    allocate B alloc n w = (.ok p, withBlock w alloc n p) := by
  unfold allocate invoke
  rw [h]
  dsimp only
  rw [if_neg hp]
  rfl

theorem vecNew_bad (hsize : size ≠ 0) (htest : BitVec.allOnes 64 / size > count) :
    vecNew B form bad count size padding ctor dtor alloc dealloc w = (.error (.threw bad), w) := by
  unfold vecNew
  rw [if_neg hsize, if_pos htest]
  rfl

theorem vecNew_undefined :
    vecNew B form bad count 0 padding ctor dtor alloc dealloc w = (.error .undefined, w) := by
  unfold vecNew
  rw [if_pos rfl]
  rfl

variable (B form bad padding ctor dtor alloc dealloc w) in
theorem vecNew_outcome (hsize : size ≠ 0) (htest : ¬ BitVec.allOnes 64 / size > count) :
    (∃ e, vecNew B form bad count size padding ctor dtor alloc dealloc w =
      (.error (.threw e), w.after [⟨alloc, [count * size + padding]⟩]) ∧
        B w.calls ⟨alloc, [count * size + padding]⟩ = .error e) ∨
    (vecNew B form bad count size padding ctor dtor alloc dealloc w =
      (.ok 0, w.after [⟨alloc, [count * size + padding]⟩]) ∧ B w.calls ⟨alloc, [count * size + padding]⟩ = .ok 0) ∨
    ∃ p, p ≠ 0 ∧ B w.calls ⟨alloc, [count * size + padding]⟩ = .ok p ∧
      Constructed form count size padding ctor dtor dealloc p (count * size + padding)
        (withBlock w alloc (count * size + padding) p)
        (vecNew B form bad count size padding ctor dtor alloc dealloc w) := by
  unfold vecNew
  rw [if_neg hsize, if_neg htest]
  cases h : B w.calls ⟨alloc, [count * size + padding]⟩ with
  | error e => exact Or.inl ⟨e, bind_error (allocate_error h), rfl⟩
  | ok p =>
    by_cases hp : p = 0
    · subst hp
      refine Or.inr (Or.inl ⟨(bind_ok (allocate_null h)).trans ?_, rfl⟩)
      rw [if_pos rfl]
      rfl
    · refine Or.inr (Or.inr ⟨p, hp, rfl, ?_⟩)
      rw [bind_ok (allocate_ok h hp), if_neg hp]
      exact constructIn_outcome ..

theorem withCookie_memory (hpadding : padding ≠ 0) :
    (withCookie w p padding count).memory (p + padding - 8) = count := by
  unfold withCookie
  rw [if_neg hpadding]
  exact Function.update_self ..

theorem Constructed.calls {r : Except (Exit ε) (BitVec 64) × World}
    (h : Constructed form count size padding ctor dtor dealloc p n w r) : ∃ cs, r.2.calls = w.calls ++ cs := by
  cases h with
  | undefined w' h => exact ⟨[], by rw [h, List.append_nil]⟩
  | done h => exact ⟨_, congrArg (· ++ _) (withCookie_calls w p padding count)⟩
  | released e i hi => exact ⟨_, congrArg (· ++ _) (withCookie_calls w p padding count)⟩
  | terminated w' cs h => exact ⟨cs, h⟩

theorem vecNew_calls (hsize : size ≠ 0) (htest : ¬ BitVec.allOnes 64 / size > count) :
    ∃ rest, (vecNew B form bad count size padding ctor dtor alloc dealloc w).2.calls =
      w.calls ++ ⟨alloc, [count * size + padding]⟩ :: rest := by
  obtain ⟨e, heq, -⟩ | ⟨heq, -⟩ | ⟨p, -, -, hconstructed⟩ :=
    vecNew_outcome B form bad padding ctor dtor alloc dealloc w hsize htest
  · exact ⟨[], by rw [heq]; rfl⟩
  · exact ⟨[], by rw [heq]; rfl⟩
  · obtain ⟨cs, hcs⟩ := hconstructed.calls
    refine ⟨cs, hcs.trans ?_⟩
    simp [withBlock, World.after]

variable (B form size padding dealloc) in
/-- What is given to the deallocation function after the destructors. -/
theorem vecDelete_destroys (hdtor : dtor ≠ 0) {array : BitVec 64}
    (hread : (readWord array (array - 8) : Program ε (BitVec 64)) w = (.ok count, w)) :
    (vecDelete B form array size padding dtor dealloc w).1 = .error .terminated ∨
      (vecDelete B form array size padding dtor dealloc w).2.calls =
        w.calls ++ destroys array size dtor count.toNat 0 ++
          [⟨dealloc, form.arguments (array - padding) (padding + count + size)⟩] := by
  have hunwinds := vecDtor_unwinds B array count.toNat size dtor w
  have hrun : vecDelete B form array size padding dtor dealloc w = _ := (congrFun (if_pos hdtor) w).trans (bind_ok hread)
  rw [hrun]
  cases hdtors : vecDtor B array count.toNat size dtor w with
  | mk r w' =>
    match r, hdtors with
    | .ok (), hdtors =>
      obtain ⟨-, rfl⟩ := (hunwinds.returns w').mp hdtors
      rw [bind_ok (catchAll_ok hdtors), deallocate_world]
      exact Or.inr rfl
    | .error (.threw e), hdtors =>
      obtain ⟨i, hi, -, -, rfl⟩ := (hunwinds.threw e w').mp hdtors
      obtain ⟨e', hthrow⟩ := deallocate_throw B form dealloc (array - padding) (padding + count + size)
        (w.after (destroys array size dtor count.toNat i ++ destroys array size dtor i 0)) e
      rw [bind_error ((catchAll_threw hdtors).trans hthrow), destroys_append hi.le (Nat.zero_le i)]
      exact Or.inr rfl
    | .error .terminated, hdtors =>
      rw [bind_error (catchAll_terminated hdtors)]
      exact Or.inl rfl
    | .error .undefined, hdtors => exact absurd hdtors (hunwinds.defined w')

theorem test_iff :
    BitVec.allOnes 64 / size > count ↔ count.toNat < (2 ^ 64 - 1) / size.toNat := by
  rw [gt_iff_lt, BitVec.lt_def, BitVec.toNat_udiv, BitVec.toNat_allOnes]

/-- The exception is thrown for what overflows, and for the rest that many bytes are asked for. -/
structure AllocatesRight (B : Behaviour ε) (form : Form) (bad : ε)
    (count size padding ctor dtor alloc dealloc : BitVec 64) (w : World) : Prop where
  throws : vecNew B form bad count size padding ctor dtor alloc dealloc w = (.error (.threw bad), w) ↔
    2 ^ 64 ≤ count.toNat * size.toNat + padding.toNat
  asks : count.toNat * size.toNat + padding.toNat < 2 ^ 64 →
    ∃ rest, (vecNew B form bad count size padding ctor dtor alloc dealloc w).2.calls =
      w.calls ++ ⟨alloc, [BitVec.ofNat 64 (count.toNat * size.toNat + padding.toNat)]⟩ :: rest

theorem allocatesRight_iff : AllocatesRight B form bad count size padding ctor dtor alloc dealloc w ↔
    size ≠ 0 ∧ (count.toNat < (2 ^ 64 - 1) / size.toNat ↔ 2 ^ 64 ≤ count.toNat * size.toNat + padding.toNat) := by
  have hbytes : BitVec.ofNat 64 (count.toNat * size.toNat + padding.toNat) = count * size + padding := by
    rw [BitVec.ofNat_add, BitVec.ofNat_mul, BitVec.ofNat_toNat, BitVec.ofNat_toNat, BitVec.ofNat_toNat]
    simp
  constructor
  · intro h
    have hsize : size ≠ 0 := by
      rintro rfl
      have hpadding := padding.isLt
      obtain ⟨rest, hrest⟩ := h.asks (by simpa using hpadding)
      rw [vecNew_undefined] at hrest
      simp at hrest
    refine ⟨hsize, ?_⟩
    rw [← test_iff, ← h.throws]
    constructor
    · exact vecNew_bad hsize
    · intro hbad
      by_contra htest
      obtain ⟨rest, hrest⟩ := vecNew_calls hsize htest
      rw [hbad] at hrest
      simp at hrest
  · rintro ⟨hsize, htest⟩
    rw [← test_iff] at htest
    constructor
    · rw [← htest]
      constructor
      · intro hbad
        by_contra hnot
        obtain ⟨rest, hrest⟩ := vecNew_calls hsize hnot
        rw [hbad] at hrest
        simp at hrest
      · exact vecNew_bad hsize
    · intro hlt
      rw [hbytes]
      exact vecNew_calls hsize (htest.not.mpr (not_le.mpr hlt))

theorem arguments_eq_iff {q k : BitVec 64} :
    form.arguments p n = form.arguments q k ↔ p = q ∧ (form = .sized → n = k) := by
  cases form <;> simp [Form.arguments]

theorem vecNew_released {e : ε}
    (h : vecNew B form bad count size padding ctor dtor alloc dealloc w = (.error (.threw e), w')) :
    w' = w ∨ w'.calls = w.calls ++ [⟨alloc, [count * size + padding]⟩] ∨
      ∃ p i, B w.calls ⟨alloc, [count * size + padding]⟩ = .ok p ∧ i < count.toNat ∧
        w'.calls = w.calls ++ ⟨alloc, [count * size + padding]⟩ ::
          (constructs ctor (fun k => [element (p + padding) size k]) (i + 1) ++ destroys (p + padding) size dtor i 0 ++
            [⟨dealloc, form.arguments p (count * size + padding)⟩]) := by
  by_cases hsize : size = 0
  · subst hsize
    rw [vecNew_undefined] at h
    cases h
  by_cases htest : BitVec.allOnes 64 / size > count
  · rw [vecNew_bad hsize htest] at h
    cases h
    exact Or.inl rfl
  obtain ⟨e', heq, -⟩ | ⟨heq, -⟩ | ⟨p, hp, halloc, hconstructed⟩ :=
    vecNew_outcome B form bad padding ctor dtor alloc dealloc w hsize htest
  · rw [heq] at h
    cases h
    exact Or.inr (Or.inl rfl)
  · rw [heq] at h
    cases h
  · rw [h] at hconstructed
    cases hconstructed with
    | released e i hi =>
      refine Or.inr (Or.inr ⟨p, i, halloc, hi, ?_⟩)
      rw [World.after, withCookie_calls]
      simp [withBlock, World.after]

/-- What an array is in later on. -/
structure Keeps (array : BitVec 64) (w w' : World) : Prop where
  storage : w'.storage array = w.storage array
  memory : w'.memory (array - 8) = w.memory (array - 8)

theorem withCookie_storage :
    (withCookie (withBlock w alloc n p) p padding count).storage (p + padding) = some (p, n) := by
  unfold withCookie withBlock
  split_ifs with hpadding
  · have hsame : p + 0 = p := BitVec.add_zero p
    rw [hpadding, hsame]
    exact Function.update_self ..
  · exact (Function.update_self ..).trans (Function.update_self ..)

/-- An array that has been returned. -/
theorem vecNew_array {array : BitVec 64} (halloc : B w.calls ⟨alloc, [count * size + padding]⟩ = .ok p) (hp : p ≠ 0)
    (h : vecNew B form bad count size padding ctor dtor alloc dealloc w = (.ok array, w')) :
    array = p + padding ∧ w'.storage array = some (p, count * size + padding) ∧
      (padding ≠ 0 → w'.Accessible array (array - 8) ∧ w'.memory (array - 8) = count) := by
  by_cases hsize : size = 0
  · subst hsize
    rw [vecNew_undefined] at h
    cases h
  by_cases htest : BitVec.allOnes 64 / size > count
  · rw [vecNew_bad hsize htest] at h
    cases h
  obtain ⟨e', heq, -⟩ | ⟨heq, hnull⟩ | ⟨q, -, hq, hconstructed⟩ :=
    vecNew_outcome B form bad padding ctor dtor alloc dealloc w hsize htest
  · rw [heq] at h
    cases h
  · rw [halloc] at hnull
    cases hnull
    exact absurd rfl hp
  · rw [halloc] at hq
    cases hq
    rw [h] at hconstructed
    cases hconstructed with
    | done haccess => exact ⟨rfl, withCookie_storage, fun hpadding => ⟨haccess hpadding, withCookie_memory hpadding⟩⟩

/-- In front of a block there is nothing that its pointer leads to. -/
theorem not_accessible_before {q : BitVec 64} (h : w.storage p = some (p, q)) : ¬ w.Accessible p (p - 8) := by
  unfold World.Accessible
  rw [h]
  rintro ⟨hle, hlt⟩
  have hq := q.isLt
  have hp := p.isLt
  rw [BitVec.toNat_sub] at hle hlt
  have height : (8 : BitVec 64).toNat = 8 := rfl
  rw [height] at hle hlt
  omega

theorem vecDelete_released_iff {array dtor' : BitVec 64} {w'' : World}
    (halloc : B w.calls ⟨alloc, [count * size + padding]⟩ = .ok p) (hp : p ≠ 0)
    (h : vecNew B form bad count size padding ctor dtor alloc dealloc w = (.ok array, w')) (hkeeps : Keeps array w' w'')
    (hends : (vecDelete B form array size padding dtor' dealloc w'').1 ≠ .error .terminated) :
    (vecDelete B form array size padding dtor' dealloc w'').2.calls =
        w''.calls ++ destroys array size dtor' count.toNat 0 ++ [⟨dealloc, form.arguments p (count * size + padding)⟩] ↔
      if dtor' = 0 then padding = 0 ∧ (form = .sized → count * size + padding = 0)
      else padding ≠ 0 ∧ (form = .sized → count + size = count * size) := by
  obtain ⟨rfl, hstorage, hcookie⟩ := vecNew_array halloc hp h
  rw [← hkeeps.storage] at hstorage
  split_ifs with hdtor
  · have hrun : vecDelete B form (p + padding) size padding dtor' dealloc w'' =
        deallocate B form dealloc (p + padding) 0 w'' := congrFun (if_neg (not_not.mpr hdtor)) w''
    rw [hrun, deallocate_world, destroys, if_pos hdtor, List.append_nil, World.after, List.append_cancel_left_eq,
      List.singleton_inj, Call.mk.injEq, and_iff_right rfl, arguments_eq_iff, eq_comm (a := (0 : BitVec 64))]
    have hsame : p + padding = p ↔ padding = 0 := by
      constructor
      · intro heq
        bv_omega
      · intro heq
        bv_omega
    rw [hsame]
  · by_cases hpadding : padding = 0
    · have hsame : p + padding = p := by bv_omega
      rw [hsame] at hstorage ⊢
      have hread : (readWord p (p - 8) : Program ε (BitVec 64)) w'' = (.error .undefined, w'') :=
        if_neg (not_accessible_before hstorage)
      have hrun : vecDelete B form p size padding dtor' dealloc w'' = (.error .undefined, w'') :=
        (congrFun (if_pos hdtor) w'').trans (bind_error hread)
      refine iff_of_false ?_ fun hright => hright.1 hpadding
      rw [hrun]
      simp
    · obtain ⟨haccess, hmemory⟩ := hcookie hpadding
      have haccess' : w''.Accessible (p + padding) (p + padding - 8) := by
        unfold World.Accessible at haccess ⊢
        rwa [hkeeps.storage]
      have hread : (readWord (p + padding) (p + padding - 8) : Program ε (BitVec 64)) w'' = (.ok count, w'') := by
        unfold readWord
        rw [if_pos haccess', hkeeps.memory, hmemory]
      obtain hterminated | hcalls := vecDelete_destroys B form size padding dealloc hdtor hread
      · exact absurd hterminated hends
      · have hback : p + padding - padding = p := by bv_omega
        have hsum : padding + count + size = count * size + padding ↔ count + size = count * size := by
          generalize count * size = n
          constructor
          · intro heq
            bv_omega
          · intro heq
            bv_omega
        rw [hcalls, List.append_cancel_left_eq, List.singleton_inj, Call.mk.injEq, and_iff_right rfl, arguments_eq_iff,
          hback, and_iff_right rfl, hsum, and_iff_right hpadding]

end Calls

/-- The allocation is right when the test, which is the wrong way round, agrees with the overflow. What a constructor that
throws leaves is released as it was allocated. An array is released so if it is destroyed and has a cookie, or if it is
neither, and in the form with a size only if the wrong sum is right. -/
theorem vecNew_vecDelete_iff {ε : Type} (B : Behaviour ε) (form : Form) (bad : ε)
    (count size padding ctor dtor alloc dealloc : BitVec 64) (w : World) :
    (AllocatesRight B form bad count size padding ctor dtor alloc dealloc w ↔
      size ≠ 0 ∧ (count.toNat < (2 ^ 64 - 1) / size.toNat ↔ 2 ^ 64 ≤ count.toNat * size.toNat + padding.toNat)) ∧
    (∀ e w', vecNew B form bad count size padding ctor dtor alloc dealloc w = (.error (.threw e), w') →
      w' = w ∨ w'.calls = w.calls ++ [⟨alloc, [count * size + padding]⟩] ∨
        ∃ p i, B w.calls ⟨alloc, [count * size + padding]⟩ = .ok p ∧ i < count.toNat ∧
          w'.calls = w.calls ++ ⟨alloc, [count * size + padding]⟩ ::
            (constructs ctor (fun k => [element (p + padding) size k]) (i + 1) ++
              destroys (p + padding) size dtor i 0 ++ [⟨dealloc, form.arguments p (count * size + padding)⟩])) ∧
    (∀ p array w' w'' dtor', B w.calls ⟨alloc, [count * size + padding]⟩ = .ok p → p ≠ 0 →
      vecNew B form bad count size padding ctor dtor alloc dealloc w = (.ok array, w') → Keeps array w' w'' →
      (vecDelete B form array size padding dtor' dealloc w'').1 ≠ .error .terminated →
        ((vecDelete B form array size padding dtor' dealloc w'').2.calls =
            w''.calls ++ destroys array size dtor' count.toNat 0 ++
              [⟨dealloc, form.arguments p (count * size + padding)⟩] ↔
          if dtor' = 0 then padding = 0 ∧ (form = .sized → count * size + padding = 0)
          else padding ≠ 0 ∧ (form = .sized → count + size = count * size))) :=
  ⟨allocatesRight_iff, fun _ _ => vecNew_released, fun _ _ _ _ _ => vecDelete_released_iff⟩

/-- A world in which nothing has happened. -/
def World.initial : World := ⟨[], fun _ => 0, fun _ => none⟩

/-- Functions that return the address 4096. -/
def returning : Behaviour Unit := fun _ _ => .ok 4096

/-- One element of almost the whole address space. -/
theorem vecNew_vecDelete_one :
    AllocatesRight returning .unsized () 1 0xFFFFFFFFFFFFFFF0#64 0 0 0 1 2 World.initial ∧
      (vecDelete returning .unsized 4096 0xFFFFFFFFFFFFFFF0#64 0 0 2
        (vecNew returning .unsized () 1 0xFFFFFFFFFFFFFFF0#64 0 0 0 1 2 World.initial).2).2.calls =
          [⟨1, [0xFFFFFFFFFFFFFFF0#64]⟩, ⟨2, [4096]⟩] := by
  obtain ⟨hallocates, -, hdelete⟩ :=
    vecNew_vecDelete_iff returning .unsized () 1 0xFFFFFFFFFFFFFFF0#64 0 0 0 1 2 World.initial
  refine ⟨hallocates.mpr ⟨by decide, by decide⟩, ?_⟩
  have hnew : vecNew returning .unsized () 1 0xFFFFFFFFFFFFFFF0#64 0 0 0 1 2 World.initial =
      (.ok 4096, (vecNew returning .unsized () 1 0xFFFFFFFFFFFFFFF0#64 0 0 0 1 2 World.initial).2) := rfl
  exact (hdelete 4096 4096 _ _ 0 rfl (by decide) hnew ⟨rfl, rfl⟩ nofun).mpr ⟨rfl, nofun⟩

/-- One element of four bytes is refused. -/
theorem vecNew_refuses_one :
    ¬ ∀ (B : Behaviour Unit) form count size padding ctor dtor alloc dealloc w,
      AllocatesRight B form () count size padding ctor dtor alloc dealloc w := by
  intro h
  have hright := (h returning .unsized 1 4 0 0 0 1 2 World.initial).throws.mp
    (vecNew_bad (by decide) (by decide))
  exact absurd hright (by decide)

end XviOs.CxxAbi.VecCtor
