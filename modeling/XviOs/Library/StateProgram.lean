import Mathlib.Tactic

namespace XviOs.Library.ThrowingProgram

variable {ε σ β γ : Type}

/-- A program that leaves its state as it is when it throws. -/
abbrev Program (ε σ β : Type) := ExceptT ε (StateM σ) β

variable {p : Program ε σ β} {k : β → Program ε σ γ} {s s' : σ} {b : β} {e : ε}

theorem pure_apply (b : β) (s : σ) : (pure b : Program ε σ β) s = (.ok b, s) := rfl

theorem bind_ok (h : p s = (.ok b, s')) : (p >>= k) s = k b s' := by
  change (match p s with | (r, t) => ExceptT.bindCont k r t) = _
  rw [h]
  rfl

theorem bind_error (h : p s = (.error e, s')) : (p >>= k) s = (.error e, s') := by
  change (match p s with | (r, t) => ExceptT.bindCont k r t) = _
  rw [h]
  rfl

end XviOs.Library.ThrowingProgram

namespace XviOs.Library.StateProgram

variable {σ τ β γ : Type}

theorem pure_apply (b : β) (s : σ) : (Pure.pure b : StateT σ Option β) s = some (b, s) := rfl

theorem bind_eq_some_iff {p : StateT σ Option β} {k : β → StateT σ Option γ} {s : σ} {r : γ × σ} :
    (p >>= k) s = some r ↔ ∃ b t, p s = some (b, t) ∧ k b t = some r := by
  change (p s).bind (fun q => k q.1 q.2) = some r ↔ _
  rw [Option.bind_eq_some_iff, Prod.exists]

theorem bind_eq_none {p : StateT σ Option β} {k : β → StateT σ Option γ} {s : σ}
    (h : ∀ b t, p s = some (b, t) → k b t = none) : (p >>= k) s = none := by
  change (p s).bind (fun q => k q.1 q.2) = none
  rw [Option.bind_eq_none_iff]
  exact fun q hq => h q.1 q.2 hq

theorem bind_some {p : StateT σ Option β} {k : β → StateT σ Option γ} {s t : σ} {b : β} (h : p s = some (b, t)) :
    (p >>= k) s = k b t := by
  change (p s).bind (fun q => k q.1 q.2) = _
  rw [h]
  rfl

theorem bind_none {p : StateT σ Option β} {k : β → StateT σ Option γ} {s : σ} (h : p s = none) :
    (p >>= k) s = none := by
  change (p s).bind (fun q => k q.1 q.2) = none
  rw [h]
  rfl

/-- From the state the program does not fail, and what it leaves has the property. -/
def Leads (p : StateT σ Option β) (s : σ) (Q : β → σ → Prop) : Prop := ∃ b t, p s = some (b, t) ∧ Q b t

namespace Leads

variable {p : StateT σ Option β} {k : β → StateT σ Option γ} {s : σ} {Q Q' : β → σ → Prop} {R : γ → σ → Prop}

theorem of_eq {b : β} {t : σ} (h : p s = some (b, t)) (hQ : Q b t) : Leads p s Q := ⟨b, t, h, hQ⟩

theorem pure {b : β} (h : Q b s) : Leads (Pure.pure b) s Q := of_eq rfl h

theorem bind (h : Leads p s Q) (hk : ∀ b t, Q b t → Leads (k b) t R) : Leads (p >>= k) s R := by
  obtain ⟨b, t, hp, hQ⟩ := h
  obtain ⟨c, u, hc, hR⟩ := hk b t hQ
  refine ⟨c, u, ?_, hR⟩
  change (p s).bind (fun r => k r.1 r.2) = _
  rw [hp]
  exact hc

/-- A step whose result is known. -/
theorem bind_eq {b : β} {t : σ} (h : p s = some (b, t)) (hk : Leads (k b) t R) : Leads (p >>= k) s R := by
  apply bind (Q := fun b' t' => b' = b ∧ t' = t) (of_eq h ⟨rfl, rfl⟩)
  rintro _ _ ⟨rfl, rfl⟩
  exact hk

theorem discard {Q : σ → Prop} (h : Leads p s fun _ => Q) : Leads (Functor.discard p) s fun _ => Q := by
  obtain ⟨b, t, hp, hQ⟩ := h
  refine ⟨(), t, ?_, hQ⟩
  change (p s).bind (fun r => some ((), r.2)) = _
  rw [hp]
  rfl

theorem mono (h : Leads p s Q) (hQ : ∀ b t, Q b t → Q' b t) : Leads p s Q' := by
  obtain ⟨b, t, hp, hb⟩ := h
  exact ⟨b, t, hp, hQ b t hb⟩

end Leads

/-- The program for `k` indices from `i` on. -/
def repeatFrom (body : Nat → StateT σ Option Unit) : Nat → Nat → StateT σ Option Unit
  | _, 0 => pure ()
  | i, k + 1 => do
    body i
    repeatFrom body (i + 1) k

theorem Leads.repeatFrom {body : Nat → StateT σ Option Unit} (Inv : Nat → σ → Prop) {k : Nat} :
    ∀ {i : Nat} {s : σ}, Inv i s →
      (∀ j t, i ≤ j → j < i + k → Inv j t → Leads (body j) t fun _ => Inv (j + 1)) →
        Leads (repeatFrom body i k) s fun _ => Inv (i + k) := by
  induction k with
  | zero => exact fun hinit _ => Leads.pure hinit
  | succ k ih =>
    intro i s hinit hstep
    apply Leads.bind (hstep i s (Nat.le_refl i) (Nat.lt_add_of_pos_right (Nat.succ_pos k)) hinit)
    intro _ t ht
    have hrest := ih ht fun j u hj hjk => hstep j u (Nat.le_of_succ_le hj) (by omega)
    rwa [Nat.add_right_comm] at hrest

/-- From related states, what one program does the other does too. -/
def Simulates (R : σ → τ → Prop) (p : StateT σ Option β) (q : StateT τ Option β) : Prop :=
  ∀ s t, R s t → ∀ b s', p s = some (b, s') → ∃ t', q t = some (b, t') ∧ R s' t'

namespace Simulates

variable {R : σ → τ → Prop} {p : StateT σ Option β} {q : StateT τ Option β} {k : β → StateT σ Option γ}
  {l : β → StateT τ Option γ}

theorem pure (b : β) : Simulates R (Pure.pure b) (Pure.pure b) := by
  intro s t hR b' s' h
  cases h
  exact ⟨t, rfl, hR⟩

theorem fail : Simulates R (fun _ => none : StateT σ Option β) q := by
  intro s t _ b s' h
  cases h

theorem bind (h : Simulates R p q) (hk : ∀ b, Simulates R (k b) (l b)) : Simulates R (p >>= k) (q >>= l) := by
  intro s t hR c s'' hbind
  change (p s).bind (fun r => k r.1 r.2) = _ at hbind
  obtain ⟨⟨b, s'⟩, hp, hc⟩ := Option.bind_eq_some_iff.mp hbind
  obtain ⟨t', hq, hR'⟩ := h s t hR b s' hp
  obtain ⟨t'', hl, hR''⟩ := hk b s' t' hR' c s'' hc
  refine ⟨t'', ?_, hR''⟩
  change (q t).bind (fun r => l r.1 r.2) = _
  rw [hq]
  exact hl

theorem ite {c : Prop} [Decidable c] {p' : StateT σ Option β} {q' : StateT τ Option β} (h : Simulates R p q)
    (h' : Simulates R p' q') : Simulates R (if c then p else p') (if c then q else q') := by
  split
  · exact h
  · exact h'

end Simulates

end XviOs.Library.StateProgram
