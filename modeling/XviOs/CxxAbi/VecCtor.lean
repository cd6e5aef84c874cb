import XviOs.Library.StateProgram

namespace XviOs.CxxAbi.VecCtor

open Library.ThrowingProgram

/-- A call through a pointer to a function. -/
structure Call where
  function : BitVec 64
  arguments : List (BitVec 64)
  deriving DecidableEq

/-- What the functions do: after the calls that there were, a call returns a value or throws. -/
abbrev Behaviour (ε : Type) := List Call → Call → Except ε (BitVec 64)

/-- The calls that were made, the words in the memory, and for a pointer the block that it leads into, with its size. -/
structure World where
  calls : List Call
  memory : BitVec 64 → BitVec 64
  storage : BitVec 64 → Option (BitVec 64 × BitVec 64)

def World.after (w : World) (cs : List Call) : World := { w with calls := w.calls ++ cs }

inductive Exit (ε : Type)
  | threw (e : ε)
  | terminated
  | undefined

abbrev Program (ε β : Type) := Library.ThrowingProgram.Program (Exit ε) World β

/-- A program with a loop, in which what is thrown comes with the counter. -/
abbrev Looping (ε β : Type) := Library.ThrowingProgram.Program (Exit ε × ℕ) World β

variable {ε β : Type} (B : Behaviour ε)

def invoke (function : BitVec 64) (arguments : List (BitVec 64)) : Program ε (BitVec 64) := fun w =>
  match B w.calls ⟨function, arguments⟩ with
  | .ok v => (.ok v, w.after [⟨function, arguments⟩])
  | .error e => (.error (.threw e), w.after [⟨function, arguments⟩])

def terminate : Program ε Unit := throw .terminated

/-- A loop, with the values of its counter. When a round throws, the counter is known to the handler. -/
def loop (body : ℕ → Program ε (BitVec 64)) : List ℕ → Looping ε Unit
  | [] => pure ()
  | i :: rest => fun w =>
    match body i w with
    | (.ok _, w') => loop body rest w'
    | (.error e, w') => (.error (e, i), w')

/-- `catch (...)`. -/
def catching (p : Looping ε Unit) (handler : ℕ → ε → Program ε Unit) :
    Program ε Unit := fun w =>
  match p w with
  | (.ok (), w') => (.ok (), w')
  | (.error (.threw e, i), w') => handler i e w'
  | (.error (.terminated, _), w') => (.error .terminated, w')
  | (.error (.undefined, _), w') => (.error .undefined, w')

/-- An element of an array. -/
def element (array size : BitVec 64) (i : ℕ) : BitVec 64 := array + BitVec.ofNat 64 i * size

/-- The counter from the number of the elements down to one. -/
def downFrom (count : ℕ) : List ℕ := (List.range' 1 count).reverse

def vecCleanup (array : BitVec 64) (count : ℕ) (size dtor : BitVec 64) : Program ε Unit :=
  if dtor = 0 then pure ()
  else
    catching (loop (fun index => invoke B dtor [element array size (index - 1)]) (downFrom count)) fun _ _ => terminate

/-- What `__cxa_vec_ctor` and `__cxa_vec_cctor` do with the arguments of the constructor. -/
def constructAll (array : BitVec 64) (count : ℕ) (size ctor dtor : BitVec 64) (arguments : ℕ → List (BitVec 64)) :
    Program ε Unit :=
  if ctor = 0 then pure ()
  else
    catching (loop (fun index => invoke B ctor (arguments index)) (List.range count)) fun initIndex e => do
      vecCleanup B array initIndex size dtor
      throw (.threw e)

def vecCtor (array : BitVec 64) (count : ℕ) (size ctor dtor : BitVec 64) : Program ε Unit :=
  constructAll B array count size ctor dtor fun i => [element array size i]

def vecCctor (dest src : BitVec 64) (count : ℕ) (size cctor dtor : BitVec 64) : Program ε Unit :=
  constructAll B dest count size cctor dtor fun i => [element dest size i, element src size i]

/-- What is left to be destroyed when the destructor of an element has failed. -/
def destroyRest (array : BitVec 64) (index : ℕ) (size dtor : BitVec 64) : Program ε Unit :=
  if index > 0 then vecCleanup B array (index - 1) size dtor else pure ()

def vecDtor (array : BitVec 64) (count : ℕ) (size dtor : BitVec 64) : Program ε Unit :=
  if dtor = 0 then pure ()
  else
    catching (loop (fun index => invoke B dtor [element array size (index - 1)]) (downFrom count)) fun index e => do
      destroyRest B array index size dtor
      throw (.threw e)

/-- The constructor calls for the elements before an index, in ascending order. Without a constructor there are none. -/
def constructs (ctor : BitVec 64) (arguments : ℕ → List (BitVec 64)) (i : ℕ) : List Call :=
  if ctor = 0 then [] else (List.range i).map fun k => ⟨ctor, arguments k⟩

/-- The destructor calls for the elements before an index, in descending order, down to another one. -/
def destroys (array size dtor : BitVec 64) (i j : ℕ) : List Call :=
  if dtor = 0 then [] else (List.range' j (i - j)).reverse.map fun k => ⟨dtor, [element array size k]⟩

/-- The calls are made one after the other, and all return. -/
def Returns : List Call → List Call → Prop
  | _, [] => True
  | h, c :: cs => (∃ v, B h c = .ok v) ∧ Returns (h ++ [c]) cs

/-- The last of the calls throws, and the ones before it return. -/
def Throws (e : ε) (h cs : List Call) : Prop :=
  ∃ front c, cs = front ++ [c] ∧ Returns B h front ∧ B (h ++ front) c = .error e

variable {B} {w : World} {e : ε} {h cs : List Call} {c : ℕ → Call} {n i j : ℕ}

theorem throws_concat {front : List Call} {c : Call} :
    Throws B e h (front ++ [c]) ↔ Returns B h front ∧ B (h ++ front) c = .error e := by
  constructor
  · rintro ⟨front', c', heq, hfront, hc⟩
    obtain ⟨rfl, hlast⟩ := List.append_inj' heq rfl
    cases hlast
    exact ⟨hfront, hc⟩
  · rintro ⟨hfront, hc⟩
    exact ⟨front, c, rfl, hfront, hc⟩

theorem not_throws_nil : ¬ Throws B e h [] := by
  rintro ⟨front, c, heq, -⟩
  simp at heq

theorem after_after (w : World) (cs cs' : List Call) : (w.after cs).after cs' = w.after (cs ++ cs') := by
  simp only [World.after, List.append_assoc]

theorem after_nil (w : World) : w.after [] = w := by
  simp only [World.after, List.append_nil]

section Loop

/-- A round of a loop with its call. -/
def round (B : Behaviour ε) (c : ℕ → Call) (i : ℕ) : Program ε (BitVec 64) := invoke B (c i).function (c i).arguments

theorem round_ok {v : BitVec 64} (h : B w.calls (c i) = .ok v) : round B c i w = (.ok v, w.after [c i]) := by
  unfold round invoke
  rw [h]

theorem round_error (h : B w.calls (c i) = .error e) : round B c i w = (.error (.threw e), w.after [c i]) := by
  unfold round invoke
  rw [h]

theorem loop_cons_ok {body : ℕ → Program ε (BitVec 64)} {rest : List ℕ} {v : BitVec 64} {w' : World}
    (h : body i w = (.ok v, w')) : loop body (i :: rest) w = loop body rest w' := by
  rw [loop]
  dsimp only
  rw [h]

theorem loop_cons_error {body : ℕ → Program ε (BitVec 64)} {rest : List ℕ} {x : Exit ε} {w' : World}
    (h : body i w = (.error x, w')) : loop body (i :: rest) w = (.error (x, i), w') := by
  rw [loop]
  dsimp only
  rw [h]

theorem loop_returns {l : List ℕ} (h : Returns B w.calls (l.map c)) :
    loop (round B c) l w = (.ok (), w.after (l.map c)) := by
  induction l generalizing w with
  | nil => rw [List.map_nil, after_nil]; rfl
  | cons i l ih =>
    obtain ⟨⟨v, hv⟩, hrest⟩ := h
    apply (loop_cons_ok (round_ok hv)).trans
    apply (ih hrest).trans
    rw [after_after]
    rfl

theorem loop_throws {front rest : List ℕ} (h : Throws B e w.calls ((front ++ [i]).map c)) :
    loop (round B c) (front ++ i :: rest) w = (.error (.threw e, i), w.after ((front ++ [i]).map c)) := by
  rw [List.map_append, List.map_singleton, throws_concat] at h
  induction front generalizing w with
  | nil =>
    rw [List.map_nil, List.append_nil] at h
    exact loop_cons_error (round_error h.2)
  | cons k front ih =>
    obtain ⟨⟨⟨v, hv⟩, hfront⟩, he⟩ := h
    apply (loop_cons_ok (round_ok hv)).trans
    have hrest : B ((w.after [c k]).calls ++ front.map c) (c i) = .error e := by
      rw [World.after, List.append_assoc]
      exact he
    apply (ih ⟨hfront, hrest⟩).trans
    rw [after_after]
    rfl

theorem returns_or_throws (B : Behaviour ε) (h : List Call) (c : ℕ → Call) (l : List ℕ) :
    Returns B h (l.map c) ∨ ∃ front i rest e, l = front ++ i :: rest ∧ Throws B e h ((front ++ [i]).map c) := by
  induction l generalizing h with
  | nil => exact Or.inl trivial
  | cons k l ih =>
    cases hk : B h (c k) with
    | error e =>
      refine Or.inr ⟨[], k, l, e, rfl, ?_⟩
      have hfirst : Throws B e h ([] ++ [c k]) := throws_concat.mpr ⟨trivial, by rwa [List.append_nil]⟩
      exact hfirst
    | ok v =>
      obtain hall | ⟨front, i, rest, e, rfl, hthrows⟩ := ih (h ++ [c k])
      · exact Or.inl ⟨⟨v, hk⟩, hall⟩
      · refine Or.inr ⟨k :: front, i, rest, e, rfl, ?_⟩
        rw [List.map_append, List.map_singleton, throws_concat] at hthrows ⊢
        rw [List.append_assoc] at hthrows
        exact ⟨⟨⟨v, hk⟩, hthrows.1⟩, hthrows.2⟩

end Loop

theorem catching_ok {p : Looping ε Unit} {handler : ℕ → ε → Program ε Unit}
    {w' : World} (h : p w = (.ok (), w')) : catching p handler w = (.ok (), w') := by
  unfold catching
  rw [h]

theorem catching_threw {p : Looping ε Unit} {handler : ℕ → ε → Program ε Unit}
    {w' : World} (h : p w = (.error (.threw e, i), w')) : catching p handler w = handler i e w' := by
  unfold catching
  rw [h]

section Arrays

variable {array size ctor dtor : BitVec 64} {arguments : ℕ → List (BitVec 64)}

theorem range'_split_iff {s : ℕ} {front rest : List ℕ} : List.range' s n = front ++ i :: rest ↔
    ∃ k < n, front = List.range' s k ∧ i = s + k ∧ rest = List.range' (s + k + 1) (n - k - 1) := by
  rw [List.range'_eq_append_iff]
  constructor
  · rintro ⟨k, hk, hfront, hrest⟩
    obtain ⟨d, hd⟩ : ∃ d, n - k = d + 1 := by
      refine Nat.exists_eq_succ_of_ne_zero fun hzero => ?_
      rw [hzero] at hrest
      cases hrest
    rw [hd, List.range'_succ, List.cons.injEq, mul_one] at hrest
    exact ⟨k, by omega, hfront, hrest.1, by rw [hrest.2, hd, Nat.add_sub_cancel]⟩
  · rintro ⟨k, hk, hfront, rfl, rfl⟩
    refine ⟨k, hk.le, hfront, ?_⟩
    obtain ⟨d, hd⟩ : ∃ d, n - k = d + 1 := ⟨n - k - 1, by omega⟩
    rw [hd, List.range'_succ, Nat.add_sub_cancel, mul_one]

theorem range_split {front rest : List ℕ} (h : List.range n = front ++ i :: rest) :
    i < n ∧ front ++ [i] = List.range (i + 1) := by
  rw [List.range_eq_range', range'_split_iff] at h
  obtain ⟨k, hk, rfl, rfl, -⟩ := h
  rw [Nat.zero_add, List.range_succ, List.range_eq_range']
  exact ⟨hk, rfl⟩

theorem range_eq (hi : i < n) : ∃ rest, List.range n = List.range i ++ i :: rest := by
  refine ⟨List.range' (0 + i + 1) (n - i - 1), ?_⟩
  rw [List.range_eq_range', List.range_eq_range', range'_split_iff]
  exact ⟨i, hi, rfl, (Nat.zero_add i).symm, rfl⟩

/-- The counter has gone down to an element. -/
theorem downFrom_split_iff {front rest : List ℕ} : downFrom n = front ++ i :: rest ↔
    ∃ j < n, i = j + 1 ∧ front = (List.range' (j + 2) (n - j - 1)).reverse ∧ rest = downFrom j := by
  rw [downFrom, List.reverse_eq_append_iff, List.reverse_cons, List.append_assoc, List.singleton_append,
    range'_split_iff]
  constructor
  · rintro ⟨j, hj, hrest, rfl, hfront⟩
    refine ⟨j, hj, Nat.add_comm 1 j, ?_, ?_⟩
    · rw [← List.reverse_reverse front, hfront, Nat.add_comm 1 j]
    · rw [← List.reverse_reverse rest, hrest]
      rfl
  · rintro ⟨j, hj, rfl, rfl, rfl⟩
    refine ⟨j, hj, ?_, Nat.add_comm j 1, ?_⟩
    · rw [downFrom, List.reverse_reverse]
    · rw [List.reverse_reverse, Nat.add_comm 1 j]

theorem reverse_range'_concat (hj : j < n) :
    (List.range' (j + 2) (n - j - 1)).reverse ++ [j + 1] = (List.range' (j + 1) (n - j)).reverse := by
  obtain ⟨d, hd⟩ : ∃ d, n - j = d + 1 := ⟨n - j - 1, by omega⟩
  rw [hd, Nat.add_sub_cancel, List.range'_succ, List.reverse_cons]

/-- The destructor call of a round. -/
def destroyCall (array size dtor : BitVec 64) (index : ℕ) : Call := ⟨dtor, [element array size (index - 1)]⟩

theorem destroys_eq (hdtor : dtor ≠ 0) (i j : ℕ) :
    destroys array size dtor i j = (List.range' (j + 1) (i - j)).reverse.map (destroyCall array size dtor) := by
  rw [destroys, if_neg hdtor, List.map_reverse, List.map_reverse, List.range'_eq_map_range, List.range'_eq_map_range,
    List.map_map, List.map_map]
  congr 1
  apply List.map_congr_left
  intro k _
  simp [destroyCall]

/-- All constructors return, or there is a first one that throws. -/
theorem constructs_returns_or_throws (B : Behaviour ε) (h : List Call) (ctor : BitVec 64)
    (arguments : ℕ → List (BitVec 64)) (n : ℕ) :
    Returns B h (constructs ctor arguments n) ∨ ∃ i < n, ∃ e, Throws B e h (constructs ctor arguments (i + 1)) := by
  by_cases hctor : ctor = 0
  · refine Or.inl ?_
    rw [constructs, if_pos hctor]
    trivial
  · simp only [constructs, if_neg hctor]
    obtain hall | ⟨front, i, rest, e, hsplit, hthrows⟩ :=
      returns_or_throws B h (fun k => ⟨ctor, arguments k⟩) (List.range n)
    · exact Or.inl hall
    · obtain ⟨hi, hfront⟩ := range_split hsplit
      rw [hfront] at hthrows
      exact Or.inr ⟨i, hi, e, hthrows⟩

theorem destroys_returns_or_throws (B : Behaviour ε) (h : List Call) (array size dtor : BitVec 64) (n : ℕ) :
    Returns B h (destroys array size dtor n 0) ∨ ∃ j < n, ∃ e, Throws B e h (destroys array size dtor n j) := by
  by_cases hdtor : dtor = 0
  · refine Or.inl ?_
    rw [destroys, if_pos hdtor]
    trivial
  · simp only [destroys_eq hdtor]
    obtain hall | ⟨front, i, rest, e, hsplit, hthrows⟩ :=
      returns_or_throws B h (destroyCall array size dtor) (downFrom n)
    · exact Or.inl hall
    · obtain ⟨j, hj, rfl, rfl, -⟩ := downFrom_split_iff.mp hsplit
      rw [reverse_range'_concat hj] at hthrows
      exact Or.inr ⟨j, hj, e, hthrows⟩

theorem destroyLoop_returns (hdtor : dtor ≠ 0) (h : Returns B w.calls (destroys array size dtor n 0)) :
    loop (fun index => invoke B dtor [element array size (index - 1)]) (downFrom n) w =
      (.ok (), w.after (destroys array size dtor n 0)) := by
  rw [destroys_eq hdtor] at h ⊢
  exact loop_returns h

theorem throws_ne_null (h : Throws B e cs (destroys array size dtor n j)) : dtor ≠ 0 := by
  intro hdtor
  rw [destroys, if_pos hdtor] at h
  exact not_throws_nil h

theorem destroyLoop_throws (hj : j < n) (h : Throws B e w.calls (destroys array size dtor n j)) :
    loop (fun index => invoke B dtor [element array size (index - 1)]) (downFrom n) w =
      (.error (.threw e, j + 1), w.after (destroys array size dtor n j)) := by
  have hdtor := throws_ne_null h
  rw [destroys_eq hdtor, ← reverse_range'_concat hj] at h ⊢
  rw [downFrom_split_iff.mpr ⟨j, hj, rfl, rfl, rfl⟩]
  exact loop_throws h

theorem vecCleanup_returns (h : Returns B w.calls (destroys array size dtor n 0)) :
    vecCleanup B array n size dtor w = (.ok (), w.after (destroys array size dtor n 0)) := by
  unfold vecCleanup
  by_cases hdtor : dtor = 0
  · rw [if_pos hdtor, destroys, if_pos hdtor, after_nil]
    rfl
  · rw [if_neg hdtor]
    exact catching_ok (destroyLoop_returns hdtor h)

theorem vecCleanup_terminates (hj : j < n) (h : Throws B e w.calls (destroys array size dtor n j)) :
    vecCleanup B array n size dtor w = (.error .terminated, w.after (destroys array size dtor n j)) := by
  unfold vecCleanup
  rw [if_neg (throws_ne_null h)]
  exact catching_threw (destroyLoop_throws hj h)

theorem constructAll_returns (h : Returns B w.calls (constructs ctor arguments n)) :
    constructAll B array n size ctor dtor arguments w = (.ok (), w.after (constructs ctor arguments n)) := by
  unfold constructAll
  by_cases hctor : ctor = 0
  · rw [if_pos hctor, constructs, if_pos hctor, after_nil]
    rfl
  · rw [if_neg hctor]
    rw [constructs, if_neg hctor] at h ⊢
    exact catching_ok (loop_returns (c := fun k => ⟨ctor, arguments k⟩) h)

theorem constructAll_throws (hi : i < n) (h : Throws B e w.calls (constructs ctor arguments (i + 1))) :
    constructAll B array n size ctor dtor arguments w =
      (do
        vecCleanup B array i size dtor
        throw (.threw e) : Program ε Unit) (w.after (constructs ctor arguments (i + 1))) := by
  have hctor : ctor ≠ 0 := by
    intro hctor
    rw [constructs, if_pos hctor] at h
    exact not_throws_nil h
  obtain ⟨rest, hrest⟩ := range_eq hi
  unfold constructAll
  rw [if_neg hctor, hrest]
  rw [constructs, if_neg hctor, List.range_succ] at h ⊢
  exact catching_threw (loop_throws (c := fun k => ⟨ctor, arguments k⟩) h)

theorem vecDtor_returns (h : Returns B w.calls (destroys array size dtor n 0)) :
    vecDtor B array n size dtor w = (.ok (), w.after (destroys array size dtor n 0)) := by
  unfold vecDtor
  by_cases hdtor : dtor = 0
  · rw [if_pos hdtor, destroys, if_pos hdtor, after_nil]
    rfl
  · rw [if_neg hdtor]
    exact catching_ok (destroyLoop_returns hdtor h)

theorem vecDtor_throws (hi : i < n) (h : Throws B e w.calls (destroys array size dtor n i)) :
    vecDtor B array n size dtor w =
      (do
        vecCleanup B array i size dtor
        throw (.threw e) : Program ε Unit) (w.after (destroys array size dtor n i)) := by
  unfold vecDtor
  rw [if_neg (throws_ne_null h)]
  exact catching_threw (destroyLoop_throws hi h)

/-- Before the exception goes on, what is left is destroyed. -/
theorem cleanup_throw_eq (h : Returns B w.calls (destroys array size dtor i 0)) :
    (do
      vecCleanup B array i size dtor
      throw (.threw e) : Program ε Unit) w = (.error (.threw e), w.after (destroys array size dtor i 0)) :=
  bind_ok (vecCleanup_returns h)

theorem cleanup_throw_terminates {e' : ε} (hj : j < i) (h : Throws B e' w.calls (destroys array size dtor i j)) :
    (do
      vecCleanup B array i size dtor
      throw (.threw e) : Program ε Unit) w = (.error .terminated, w.after (destroys array size dtor i j)) :=
  bind_error (vecCleanup_terminates hj h)

theorem destroys_append (hij : i ≤ n) (hj : j ≤ i) :
    destroys array size dtor n i ++ destroys array size dtor i j = destroys array size dtor n j := by
  unfold destroys
  split
  · rfl
  · rw [← List.map_append, ← List.reverse_append]
    have hsplit := List.range'_append_1 (s := j) (m := i - j) (n := n - i)
    rw [Nat.add_sub_cancel' hj] at hsplit
    rw [hsplit, show i - j + (n - i) = n - j by omega]

end Arrays

/-- The calls are made one after the other. When one of them throws, the elements before its index are destroyed and the
exception goes on, and when that fails too the program ends. -/
structure Unwinds (B : Behaviour ε) (run : Program ε Unit) (all : List Call) (upTo : ℕ → List Call)
    (destroys : ℕ → ℕ → List Call) (n : ℕ) (w : World) : Prop where
  returns : ∀ w', run w = (.ok (), w') ↔ Returns B w.calls all ∧ w' = w.after all
  threw : ∀ e w', run w = (.error (.threw e), w') ↔ ∃ i < n, Throws B e w.calls (upTo i) ∧
    Returns B (w.calls ++ upTo i) (destroys i 0) ∧ w' = w.after (upTo i ++ destroys i 0)
  terminated : ∀ w', run w = (.error .terminated, w') ↔ ∃ i < n, ∃ e, Throws B e w.calls (upTo i) ∧
    ∃ j < i, ∃ e', Throws B e' (w.calls ++ upTo i) (destroys i j) ∧ w' = w.after (upTo i ++ destroys i j)
  defined : ∀ w', run w ≠ (.error .undefined, w')

/-- A clean-up does not throw. -/
structure CleansUp (B : Behaviour ε) (run : Program ε Unit) (destroys : ℕ → ℕ → List Call) (n : ℕ) (w : World) :
    Prop where
  returns : ∀ w', run w = (.ok (), w') ↔ Returns B w.calls (destroys n 0) ∧ w' = w.after (destroys n 0)
  terminated : ∀ w', run w = (.error .terminated, w') ↔ ∃ j < n, ∃ e, Throws B e w.calls (destroys n j) ∧
    w' = w.after (destroys n j)
  threw : ∀ e w', run w ≠ (.error (.threw e), w')

section Outcomes

variable {array size ctor dtor : BitVec 64}

theorem unwinds_of_runs {run : Program ε Unit} {all : List Call} {upTo : ℕ → List Call}
    (hcases : Returns B w.calls all ∨ ∃ i < n, ∃ e, Throws B e w.calls (upTo i))
    (hreturns : Returns B w.calls all → run w = (.ok (), w.after all))
    (hthrows : ∀ i < n, ∀ e, Throws B e w.calls (upTo i) → run w =
      (do
        vecCleanup B array i size dtor
        throw (.threw e) : Program ε Unit) (w.after (upTo i))) :
    Unwinds B run all upTo (destroys array size dtor) n w := by
  have hthrew : ∀ i < n, ∀ e, Throws B e w.calls (upTo i) →
      Returns B (w.calls ++ upTo i) (destroys array size dtor i 0) →
        run w = (.error (.threw e), w.after (upTo i ++ destroys array size dtor i 0)) := by
    intro i hi e h hrest
    rw [hthrows i hi e h, ← after_after]
    exact cleanup_throw_eq hrest
  have hterminated : ∀ i < n, ∀ e, Throws B e w.calls (upTo i) →
      ∀ j < i, ∀ e', Throws B e' (w.calls ++ upTo i) (destroys array size dtor i j) →
        run w = (.error .terminated, w.after (upTo i ++ destroys array size dtor i j)) := by
    intro i hi e h j hj e' hrest
    rw [hthrows i hi e h, ← after_after]
    exact cleanup_throw_terminates hj hrest
  -- the run ends in one of three ways, and the four fields say which calls belong to each
  have hall : (Returns B w.calls all ∧ run w = (.ok (), w.after all)) ∨
      (∃ i < n, ∃ e, Throws B e w.calls (upTo i) ∧ Returns B (w.calls ++ upTo i) (destroys array size dtor i 0) ∧
        run w = (.error (.threw e), w.after (upTo i ++ destroys array size dtor i 0))) ∨
      ∃ i < n, ∃ e, Throws B e w.calls (upTo i) ∧ ∃ j < i, ∃ e',
        Throws B e' (w.calls ++ upTo i) (destroys array size dtor i j) ∧
          run w = (.error .terminated, w.after (upTo i ++ destroys array size dtor i j)) := by
    obtain h | ⟨i, hi, e, h⟩ := hcases
    · exact Or.inl ⟨h, hreturns h⟩
    · obtain hrest | ⟨j, hj, e', hrest⟩ := destroys_returns_or_throws B (w.calls ++ upTo i) array size dtor i
      · exact Or.inr (Or.inl ⟨i, hi, e, h, hrest, hthrew i hi e h hrest⟩)
      · exact Or.inr (Or.inr ⟨i, hi, e, h, j, hj, e', hrest, hterminated i hi e h j hj e' hrest⟩)
  constructor
  · intro w'
    constructor
    · intro hrun
      obtain ⟨h, heq⟩ | ⟨i, hi, e, h, hrest, heq⟩ | ⟨i, hi, e, h, j, hj, e', hrest, heq⟩ := hall
      all_goals cases heq.symm.trans hrun
      exact ⟨h, rfl⟩
    · rintro ⟨h, rfl⟩
      exact hreturns h
  · intro e w'
    constructor
    · intro hrun
      obtain ⟨h, heq⟩ | ⟨i, hi, e, h, hrest, heq⟩ | ⟨i, hi, e, h, j, hj, e', hrest, heq⟩ := hall
      all_goals cases heq.symm.trans hrun
      exact ⟨i, hi, h, hrest, rfl⟩
    · rintro ⟨i, hi, h, hrest, rfl⟩
      exact hthrew i hi e h hrest
  · intro w'
    constructor
    · intro hrun
      obtain ⟨h, heq⟩ | ⟨i, hi, e, h, hrest, heq⟩ | ⟨i, hi, e, h, j, hj, e', hrest, heq⟩ := hall
      all_goals cases heq.symm.trans hrun
      exact ⟨i, hi, e, h, j, hj, e', hrest, rfl⟩
    · rintro ⟨i, hi, e, h, j, hj, e', hrest, rfl⟩
      exact hterminated i hi e h j hj e' hrest
  · intro w' hrun
    obtain ⟨h, heq⟩ | ⟨i, hi, e, h, hrest, heq⟩ | ⟨i, hi, e, h, j, hj, e', hrest, heq⟩ := hall
    all_goals cases heq.symm.trans hrun

theorem constructAll_unwinds (B : Behaviour ε) (array : BitVec 64) (n : ℕ) (size ctor dtor : BitVec 64)
    (arguments : ℕ → List (BitVec 64)) (w : World) :
    Unwinds B (constructAll B array n size ctor dtor arguments) (constructs ctor arguments n)
      (fun i => constructs ctor arguments (i + 1)) (destroys array size dtor) n w :=
  unwinds_of_runs (constructs_returns_or_throws B w.calls ctor arguments n) constructAll_returns
    fun _ hi _ h => constructAll_throws hi h

theorem vecDtor_unwinds (B : Behaviour ε) (array : BitVec 64) (n : ℕ) (size dtor : BitVec 64) (w : World) :
    Unwinds B (vecDtor B array n size dtor) (destroys array size dtor n 0) (destroys array size dtor n)
      (destroys array size dtor) n w :=
  unwinds_of_runs (destroys_returns_or_throws B w.calls array size dtor n) vecDtor_returns
    fun _ hi _ h => vecDtor_throws hi h

theorem vecCleanup_cleansUp (B : Behaviour ε) (array : BitVec 64) (n : ℕ) (size dtor : BitVec 64) (w : World) :
    CleansUp B (vecCleanup B array n size dtor) (destroys array size dtor) n w := by
  have hcases := destroys_returns_or_throws B w.calls array size dtor n
  constructor
  · intro w'
    constructor
    · intro hrun
      obtain h | ⟨j, hj, e, h⟩ := hcases
      · rw [vecCleanup_returns h] at hrun
        cases hrun
        exact ⟨h, rfl⟩
      · rw [vecCleanup_terminates hj h] at hrun
        cases hrun
    · rintro ⟨h, rfl⟩
      exact vecCleanup_returns h
  · intro w'
    constructor
    · intro hrun
      obtain h | ⟨j, hj, e, h⟩ := hcases
      · rw [vecCleanup_returns h] at hrun
        cases hrun
      · rw [vecCleanup_terminates hj h] at hrun
        cases hrun
        exact ⟨j, hj, e, h, rfl⟩
    · rintro ⟨j, hj, e, h, rfl⟩
      exact vecCleanup_terminates hj h
  · intro e' w' hrun
    obtain h | ⟨j, hj, e, h⟩ := hcases
    · rw [vecCleanup_returns h] at hrun
      cases hrun
    · rw [vecCleanup_terminates hj h] at hrun
      cases hrun

end Outcomes

/-- An array is constructed in ascending order and destroyed in descending order, also when a call throws, and only a
destructor that throws on the way of an earlier exception, or in a clean-up, ends the program. -/
theorem array_unwinds (B : Behaviour ε) (array src : BitVec 64) (n : ℕ) (size ctor cctor dtor : BitVec 64) (w : World) :
    Unwinds B (vecCtor B array n size ctor dtor) (constructs ctor (fun k => [element array size k]) n)
      (fun i => constructs ctor (fun k => [element array size k]) (i + 1)) (destroys array size dtor) n w ∧
    Unwinds B (vecCctor B array src n size cctor dtor)
      (constructs cctor (fun k => [element array size k, element src size k]) n)
      (fun i => constructs cctor (fun k => [element array size k, element src size k]) (i + 1))
      (destroys array size dtor) n w ∧
    Unwinds B (vecDtor B array n size dtor) (destroys array size dtor n 0) (destroys array size dtor n)
      (destroys array size dtor) n w ∧
    (∀ i j, i ≤ n → j ≤ i →
      destroys array size dtor n i ++ destroys array size dtor i j = destroys array size dtor n j) ∧
    CleansUp B (vecCleanup B array n size dtor) (destroys array size dtor) n w :=
  ⟨constructAll_unwinds .., constructAll_unwinds .., vecDtor_unwinds .., fun _ _ => destroys_append,
    vecCleanup_cleansUp ..⟩

end XviOs.CxxAbi.VecCtor
