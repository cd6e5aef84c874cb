import XviOs.Library.Runs

namespace XviOs.Library.Runs

variable {S C E : Type} {step : S → C → Option S} {allowed : S → C → Prop} {event : S → C → S → List E} {s t u : S}
  {cs ds : List C} {c : C} {m n : Nat} {P Q : S → Prop} {A : Set C}

theorem Execution.append (h : Execution step allowed s cs t) (h' : Execution step allowed t ds u) :
    Execution step allowed s (cs ++ ds) u := by
  induction h' with
  | nil =>
      rw [List.append_nil]
      exact h
  | snoc _ ha hs ih =>
      rw [← List.append_assoc]
      exact .snoc ih ha hs

/-! ## What can be observed of a run -/

/-- The events of the steps of a run, one step after the other. -/
def trace (step : S → C → Option S) (event : S → C → S → List E) : S → List C → List E
  | _, [] => []
  | s, c :: cs =>
      match step s c with
      | none => []
      | some t => event s c t ++ trace step event t cs

theorem trace_append (h : Execution step allowed s cs t) :
    trace step event s (cs ++ ds) = trace step event s cs ++ trace step event t ds := by
  induction h generalizing ds with
  | nil => rfl
  | snoc _ _ hs ih =>
      rw [List.append_assoc, ih, ih, List.append_assoc]
      simp only [trace, hs, List.cons_append, List.nil_append, List.append_nil]

theorem trace_snoc (h : Execution step allowed s cs t) (hs : step t c = some u) :
    trace step event s (cs ++ [c]) = trace step event s cs ++ event t c u := by
  rw [trace_append h, trace, hs]
  simp only [trace, List.append_nil]

/-! ## What can be reached -/

/-- At most `n` allowed commands of `A` lead from the state to one of `P`. -/
def Leads (step : S → C → Option S) (allowed : S → C → Prop) (A : Set C) (n : Nat) (s : S) (P : S → Prop) : Prop :=
  ∃ cs t, cs.length ≤ n ∧ (∀ c ∈ cs, c ∈ A) ∧ Execution step allowed s cs t ∧ P t

namespace Leads

theorem here (h : P s) : Leads step allowed A n s P := ⟨[], s, Nat.zero_le n, by simp, .nil, h⟩

theorem trans (h : Leads step allowed A n s P) (h' : ∀ t, P t → Leads step allowed A m t Q) :
    Leads step allowed A (n + m) s Q := by
  obtain ⟨cs, t, hcs, hA, hrun, hP⟩ := h
  obtain ⟨ds, u, hds, hB, hrun', hQ⟩ := h' t hP
  refine ⟨cs ++ ds, u, ?_, ?_, hrun.append hrun', hQ⟩
  · rw [List.length_append]
    exact Nat.add_le_add hcs hds
  · intro c hc
    exact (List.mem_append.mp hc).elim (hA c) (hB c)

theorem cons (hA : c ∈ A) (hallowed : allowed s c) (hstep : step s c = some t) (h : Leads step allowed A n t P) :
    Leads step allowed A (n + 1) s P := by
  have hone : Leads step allowed A 1 s (· = t) :=
    ⟨[c], t, Nat.le_refl 1, by simpa using hA, .snoc .nil hallowed hstep, rfl⟩
  rw [Nat.add_comm]
  apply hone.trans
  rintro _ rfl
  exact h

theorem mono (h : Leads step allowed A n s P) (hn : n ≤ m) : Leads step allowed A m s P := by
  obtain ⟨cs, t, hcs, hrest⟩ := h
  exact ⟨cs, t, Nat.le_trans hcs hn, hrest⟩

end Leads

end XviOs.Library.Runs
