import Mathlib.Data.List.Basic

namespace XviOs.Library.Refinement

variable {A S C : Type*} {step : S → C → Option S} {absStep : A → C → A} {allowed : A → C → Prop}

/-- Each of the commands is allowed in the abstract state that it is given in. -/
def AllAllowed (absStep : A → C → A) (allowed : A → C → Prop) : A → List C → Prop
  | _, [] => True
  | a, c :: cs => allowed a c ∧ AllAllowed absStep allowed (absStep a c) cs

theorem allAllowed_of_forall {P : C → Prop} {cs : List C} {a : A} (h : ∀ c ∈ cs, P c) :
    AllAllowed absStep (fun _ => P) a cs := by
  induction cs generalizing a with
  | nil => trivial
  | cons c cs ih =>
    rw [List.forall_mem_cons] at h
    exact ⟨h.1, ih h.2⟩

/-- When each step that is allowed succeeds and does what the abstract one does, a run does too. -/
theorem run_refines {R : A → S → Prop}
    (hstep : ∀ a s c, R a s → allowed a c → ∃ t, step s c = some t ∧ R (absStep a c) t) {cs : List C} {a : A} {s : S}
    (hR : R a s) (hcs : AllAllowed absStep allowed a cs) :
    ∃ t, cs.foldlM step s = some t ∧ R (cs.foldl absStep a) t := by
  induction cs generalizing a s with
  | nil => exact ⟨s, rfl, hR⟩
  | cons c cs ih =>
    obtain ⟨t, ht, hRt⟩ := hstep a s c hR hcs.1
    obtain ⟨u, hu, hRu⟩ := ih hRt hcs.2
    refine ⟨u, ?_, hRu⟩
    rw [List.foldlM_cons, ht]
    exact hu

end XviOs.Library.Refinement

namespace XviOs.Library.Runs

variable {S C : Type}

/-- `Execution step allowed s cs t`: from state `s`, the commands `cs`, each of which is
allowed in the state that it is given in, lead to `t`. -/
inductive Execution (step : S → C → Option S) (allowed : S → C → Prop) (s : S) : List C → S → Prop
  | nil : Execution step allowed s [] s
  | snoc {cs : List C} {t u : S} {c : C} :
      Execution step allowed s cs t → allowed t c → step t c = some u → Execution step allowed s (cs ++ [c]) u

variable {step : S → C → Option S} {allowed : S → C → Prop} {s t : S} {cs ds : List C} {c : C} {P : S → Prop}

/-- What every allowed step preserves holds after every run. -/
theorem Execution.invariant (h : Execution step allowed s cs t) (h0 : P s)
    (hstep : ∀ t u c, P t → allowed t c → step t c = some u → P u) : P t := by
  induction h with
  | nil => exact h0
  | snoc _ ha hs ih => exact hstep _ _ _ ih ha hs

/-- A run passes through the states that its prefixes lead to. -/
theorem Execution.split (h : Execution step allowed s (cs ++ ds) t) :
    ∃ u, Execution step allowed s cs u ∧ Execution step allowed u ds t := by
  obtain ⟨es, he⟩ : ∃ es, es = cs ++ ds := ⟨_, rfl⟩
  rw [← he] at h
  induction h generalizing ds with
  | nil =>
      obtain ⟨rfl, rfl⟩ := List.append_eq_nil_iff.mp he.symm
      exact ⟨s, .nil, .nil⟩
  | @snoc es t u c hr ha hs ih =>
      rcases List.eq_nil_or_concat ds with rfl | ⟨ds', d, rfl⟩
      · rw [List.append_nil] at he
        exact ⟨u, he ▸ .snoc hr ha hs, .nil⟩
      · rw [List.concat_eq_append, ← List.append_assoc] at he
        obtain ⟨he', hc⟩ := List.append_inj' he rfl
        obtain rfl : c = d := by simpa using hc
        obtain ⟨v, hv, hv'⟩ := ih he'
        exact ⟨v, hv, by rw [List.concat_eq_append]; exact .snoc hv' ha hs⟩

theorem Execution.nil_eq (h : Execution step allowed s cs t) (hc : cs = []) : t = s := by
  cases h with
  | nil => rfl
  | snoc => simp at hc

theorem Execution.single (h : Execution step allowed s [c] t) : allowed s c ∧ step s c = some t := by
  obtain ⟨es, he⟩ : ∃ es, es = [c] := ⟨_, rfl⟩
  rw [← he] at h
  cases h with
  | nil => simp at he
  | @snoc es t' _ c' hr ha hs =>
      have hlen := congrArg List.length he
      simp only [List.length_append, List.length_cons, List.length_nil] at hlen
      obtain rfl : es = [] := List.length_eq_zero_iff.mp (by omega)
      obtain rfl : c' = c := by simpa using he
      rw [hr.nil_eq rfl] at ha hs
      exact ⟨ha, hs⟩

/-- The commands decide the state that a run leads to. -/
theorem Execution.unique {u : S} (ht : Execution step allowed s cs t) (hu : Execution step allowed s cs u) : t = u := by
  induction ht generalizing u with
  | nil => exact (hu.nil_eq rfl).symm
  | snoc _ _ hs ih =>
      obtain ⟨v, hv, hvu⟩ := hu.split
      obtain rfl := ih hv
      exact Option.some.inj (hs.symm.trans hvu.single.2)

end XviOs.Library.Runs
