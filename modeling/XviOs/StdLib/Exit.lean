import Mathlib.Tactic

namespace XviOs.StdLib.Exit

variable {H : Type}

/-- The table has static storage, so that its pointers are null at first. -/
structure AtExitHandlers (H : Type) where
  handlerCount : ℕ
  staticHandlers : Fin 32 → Option H

namespace AtExitHandlers

def initial : AtExitHandlers H := ⟨0, fun _ => none⟩

def push (s : AtExitHandlers H) (handler : H) : Bool × AtExitHandlers H :=
  if h : s.handlerCount < 32 then
    (true, ⟨s.handlerCount + 1, Function.update s.staticHandlers ⟨s.handlerCount, h⟩ (some handler)⟩)
  else (false, s)

/-- `m_staticHandlers[m_handlerCount]`. There is none where the pointer is null or the index outside of the array. -/
def handlerAt (s : AtExitHandlers H) : Option H :=
  if h : s.handlerCount < 32 then s.staticHandlers ⟨s.handlerCount, h⟩ else none

end AtExitHandlers

inductive Event (H : Type)
  | registered (handler : H) (success : Bool)
  | called (handler : H)

/-- The table, and what has happened with it. -/
structure World (H : Type) where
  table : AtExitHandlers H
  log : List (Event H)

def atexit (w : World H) (handler : H) : World H :=
  ⟨(w.table.push handler).2, w.log ++ [.registered handler (w.table.push handler).1]⟩

inductive Outcome (H : Type)
  | returned (w : World H)
  | undefined
  | running (w : World H)

/-- `run`, for as many handlers as the fuel allows. What a handler registers may depend on all that has happened. -/
def run (body : List (Event H) → H → List H) : ℕ → World H → Outcome H
  | 0, w => .running w
  | fuel + 1, w =>
    if w.table.handlerCount > 0 then
      match w.table.handlerAt with
      | none => .undefined
      | some handler =>
        let log := w.log ++ [.called handler]
        let table := { w.table with handlerCount := w.table.handlerCount - 1 }
        run body fuel ((body log handler).foldl atexit ⟨table, log⟩)
    else .returned w

/-- `exit` after some registrations. -/
def exit (body : List (Event H) → H → List H) (handlers : List H) (fuel : ℕ) : Outcome H :=
  run body fuel (handlers.foldl atexit ⟨.initial, []⟩)

/-- The handlers that are registered and have not been called, the most recent one first. -/
def pending (log : List (Event H)) : List H :=
  log.foldl (fun stack event =>
    match event with
    | .registered handler success => if success then handler :: stack else stack
    | .called _ => stack.tail) []

/-- Each call is one of the most recently registered handler that is pending. -/
def LastInFirstOut (log : List (Event H)) : Prop :=
  ∀ front handler back, log = front ++ .called handler :: back → (pending front).head? = some handler

/-- At the end no handler is pending. -/
def Outcome.Right : Outcome H → Prop
  | returned w => LastInFirstOut w.log ∧ pending w.log = []
  | undefined => False
  | running w => LastInFirstOut w.log

def ExitRight (body : List (Event H) → H → List H) (handlers : List H) : Prop :=
  ∀ fuel, (exit body handlers fuel).Right

variable {s : AtExitHandlers H} {handler : H}

theorem push_full (h : 32 ≤ s.handlerCount) : s.push handler = (false, s) := dif_neg (not_lt.mpr h)

/-- Above the handlers that have been registered there are null pointers. -/
def NullAbove (s : AtExitHandlers H) : Prop := ∀ i : Fin 32, s.handlerCount ≤ i → s.staticHandlers i = none

theorem NullAbove.push (h : NullAbove s) : NullAbove (s.push handler).2 := by
  unfold AtExitHandlers.push
  split_ifs with hlt
  · intro i hi
    have hne : i ≠ ⟨s.handlerCount, hlt⟩ := by
      rintro rfl
      exact absurd hi (Nat.not_succ_le_self _)
    exact (Function.update_of_ne hne ..).trans (h i (Nat.le_of_succ_le hi))
  · exact h

theorem handlerCount_le_push (s : AtExitHandlers H) (handler : H) :
    s.handlerCount ≤ (s.push handler).2.handlerCount := by
  unfold AtExitHandlers.push
  split_ifs
  · exact Nat.le_succ _
  · exact Nat.le_refl _

theorem foldl_atexit (handlers : List H) {w : World H} (h : NullAbove w.table) :
    NullAbove (handlers.foldl atexit w).table ∧ w.table.handlerCount ≤ (handlers.foldl atexit w).table.handlerCount := by
  induction handlers generalizing w with
  | nil => exact ⟨h, Nat.le_refl _⟩
  | cons handler handlers ih =>
    obtain ⟨hnull, hle⟩ := ih (w := atexit w handler) h.push
    exact ⟨hnull, (handlerCount_le_push w.table handler).trans hle⟩

theorem NullAbove.handlerAt_eq_none (h : NullAbove s) : s.handlerAt = none := by
  unfold AtExitHandlers.handlerAt
  split_ifs with hlt
  · exact h ⟨s.handlerCount, hlt⟩ (Nat.le_refl _)
  · rfl

/-- The first pointer that is read is the one above all handlers. -/
theorem exit_undefined (body : List (Event H) → H → List H) (handler : H) (handlers : List H) :
    exit body (handler :: handlers) 1 = .undefined := by
  have hinitial : NullAbove (atexit ⟨.initial, []⟩ handler).table := NullAbove.push fun _ _ => rfl
  obtain ⟨hnull, hle⟩ := foldl_atexit handlers hinitial
  have hpos : (handlers.foldl atexit (atexit ⟨.initial, []⟩ handler)).table.handlerCount > 0 :=
    Nat.lt_of_lt_of_le Nat.one_pos hle
  unfold exit
  rw [List.foldl_cons, run, if_pos hpos, hnull.handlerAt_eq_none]

theorem exitRight_nil (body : List (Event H) → H → List H) : ExitRight body [] := by
  have hempty : LastInFirstOut ([] : List (Event H)) := by
    intro front handler back h
    simp at h
  intro fuel
  cases fuel with
  | zero => exact hempty
  | succ fuel => exact ⟨hempty, rfl⟩

/-- A full table stays as it is. The handlers are run right only when there are none. -/
theorem exit_right_iff (body : List (Event H) → H → List H) :
    (∀ (s : AtExitHandlers H) handler, 32 ≤ s.handlerCount → s.push handler = (false, s)) ∧
    ∀ handlers, ExitRight body handlers ↔ handlers = [] := by
  refine ⟨fun s handler => push_full, fun handlers => ?_⟩
  constructor
  · intro h
    cases handlers with
    | nil => rfl
    | cons handler handlers =>
      have hright := h 1
      rw [exit_undefined] at hright
      exact hright.elim
  · rintro rfl
    exact exitRight_nil body

theorem exit_right_empty : (AtExitHandlers.push ⟨32, fun _ => some ()⟩ ()).1 = false ∧
    ExitRight (fun _ _ => [()]) [] := by
  obtain ⟨hfull, hexit⟩ := exit_right_iff (H := Unit) fun _ _ => [()]
  refine ⟨?_, (hexit []).mpr rfl⟩
  rw [hfull ⟨32, fun _ => some ()⟩ () (Nat.le_refl 32)]

/-- One handler, which is not called. -/
theorem exit_one_undefined : ¬ ∀ (body : List (Event Unit) → Unit → List Unit) handlers, ExitRight body handlers := by
  intro h
  have hright := h (fun _ _ => []) [()] 1
  rw [exit_undefined] at hright
  exact hright

end XviOs.StdLib.Exit
