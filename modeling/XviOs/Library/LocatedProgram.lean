import Mathlib.Tactic

namespace XviOs.Library.LocatedProgram

/-- A program whose instructions stand at locations: one either goes to another location or acts on the state. -/
structure Machine (ι Loc S : Type*) where
  next : ι → Loc → Loc
  exec : ι → S → Option S
  exec_of_next_ne : ∀ i loc s, next i loc ≠ loc → exec i s = some s

namespace Machine

variable {ι Loc S : Type*} (M : Machine ι Loc S)

def run : List ι → S → Option S
  | [], s => some s
  | i :: prog, s => (M.exec i s).bind (run prog)

/-- The instructions in front of the first that leaves the locations in `within`. -/
def processed (within : Loc → Bool) : List ι → Loc → List ι
  | [], _ => []
  | i :: prog, loc =>
    if within (M.next i loc) then i :: processed within prog (M.next i loc) else []

def location : List ι → Loc → Loc
  | [], loc => loc
  | i :: prog, loc => location prog (M.next i loc)

/-- A loop that looks at the location before each instruction, and so executes the one that leaves too. -/
def runWhile (within : Loc → Bool) : List ι → Loc → S → Option S
  | [], _, s => some s
  | i :: prog, loc, s =>
    if within loc then (M.exec i s).bind (runWhile within prog (M.next i loc)) else some s

variable {M} {within : Loc → Bool} {loc : Loc}

theorem processed_cons {i : ι} (h : within (M.next i loc) = true) (prog : List ι) :
    M.processed within (i :: prog) loc = i :: M.processed within prog (M.next i loc) := by
  rw [processed, if_pos h]

theorem runWhile_of_not_within (within : Loc → Bool) (h : within loc = false) (prog : List ι) (s : S) :
    M.runWhile within prog loc s = some s := by
  cases prog with
  | nil => rfl
  | cons i prog => simp [runWhile, h]

/-- The instruction that leaves does not act on the state. -/
theorem runWhile_eq (within : Loc → Bool) (h : within loc = true) (prog : List ι) (s : S) :
    M.runWhile within prog loc s = M.run (M.processed within prog loc) s := by
  induction prog generalizing loc s with
  | nil => rfl
  | cons i prog ih =>
    rw [runWhile, if_pos h, processed]
    by_cases hnext : within (M.next i loc) = true
    · rw [if_pos hnext, run]
      congr 1
      funext s'
      exact ih hnext s'
    · have hmove : M.next i loc ≠ loc := by
        intro heq
        rw [heq] at hnext
        exact hnext h
      rw [if_neg hnext, M.exec_of_next_ne i loc s hmove, Option.bind_some]
      exact runWhile_of_not_within within (Bool.eq_false_of_not_eq_true hnext) prog s

/-- The location that is reached is within, and the next one is not. -/
theorem processed_interval (within : Loc → Bool) (h : within loc = true) (prog : List ι) :
    within (M.location (M.processed within prog loc) loc) = true ∧
      (M.processed within prog loc = prog ∨ ∃ i rest, prog = M.processed within prog loc ++ i :: rest ∧
        within (M.next i (M.location (M.processed within prog loc) loc)) = false) := by
  induction prog generalizing loc with
  | nil => exact ⟨h, Or.inl rfl⟩
  | cons i prog ih =>
    rw [processed]
    by_cases hnext : within (M.next i loc) = true
    · obtain ⟨hin, hout⟩ := ih hnext
      rw [if_pos hnext]
      refine ⟨hin, ?_⟩
      obtain hall | ⟨j, rest, hprog, hleave⟩ := hout
      · exact Or.inl (congrArg (i :: ·) hall)
      · exact Or.inr ⟨j, rest, congrArg (i :: ·) hprog, hleave⟩
    · rw [if_neg hnext]
      exact ⟨h, Or.inr ⟨i, prog, rfl, Bool.eq_false_of_not_eq_true hnext⟩⟩

/-- What is processed depends on where the instructions go, not on what they do. -/
theorem processed_eq {S' : Type*} {N : Machine ι Loc S'} (hnext : ∀ i l, M.next i l = N.next i l) (prog : List ι) :
    M.processed within prog loc = N.processed within prog loc := by
  induction prog generalizing loc with
  | nil => rfl
  | cons i prog ih => rw [processed, processed, hnext i loc, ih]

theorem processed_congr {within' : Loc → Bool} (h : ∀ l, within l = within' l) (prog : List ι) :
    M.processed within prog loc = M.processed within' prog loc := by
  have hfun : within = within' := funext h
  rw [hfun]

end Machine

end XviOs.Library.LocatedProgram
