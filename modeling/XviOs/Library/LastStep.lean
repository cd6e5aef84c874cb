import Mathlib.Logic.Basic

namespace XviOs.Library.LastStep

/-! A step says whether the walk goes on. A walk can be a search that stops at what it looks for; another walk over the
same things then does something with it, as its last step. -/

variable {ε α β γ : Type}

/-- While the walk `f` goes on, `g` does the same on the states that `inj` makes of those of `f`; where `f` stops,
`g` does the last step. -/
structure Follows (going : α → Prop) (inj : α → β) (last : α → Except ε β) (f : α → Except ε (Bool × α))
    (g : β → Except ε (Bool × β)) : Prop where
  step : ∀ s, going s → g (inj s) = (do
    let r ← f s
    let t ← last r.2
    return (r.1, t))
  goes : ∀ s s', going s → f s = .ok (true, s') → going s'

/-- The result of the walk `g` is that of the last step after `f`. -/
def Concludes (going : α → Prop) (inj : α → β) (last : α → Except ε β) (f : α → Except ε α) (g : β → Except ε β) :
    Prop :=
  ∀ s, going s → g (inj s) = f s >>= last

variable {going : α → Prop} {inj : α → β} {last : α → Except ε β} {f f' : α → Except ε (Bool × α)}
  {g g' : β → Except ε (Bool × β)} {F : α → Except ε α} {G : β → Except ε β}

theorem Follows.stay (more : Bool) (hlast : ∀ s, going s → last s = .ok (inj s)) :
    Follows going inj last (fun s => .ok (more, s)) (fun s => .ok (more, s)) where
  step := by
    intro s hs
    simp only [bind, Except.bind, hlast s hs]
    rfl
  goes := by
    intro s s' hs h
    obtain rfl := (Prod.mk.inj (Except.ok.inj h)).2
    exact hs

theorem Concludes.stay (hlast : ∀ s, going s → last s = .ok (inj s)) : Concludes going inj last .ok .ok :=
  fun s hs => (hlast s hs).symm

/-- Both walks first look at the same thing. -/
theorem Follows.bind {x : Except ε γ} {y : β → Except ε γ} {f : γ → α → Except ε (Bool × α)}
    {g : γ → β → Except ε (Bool × β)} (hy : ∀ s, going s → y (inj s) = x)
    (h : ∀ c, Follows going inj last (f c) (g c)) :
    Follows going inj last (fun s => do let c ← x; f c s) (fun s => do let c ← y s; g c s) where
  step := by
    intro s hs
    simp only [hy s hs]
    cases x with
    | error e => rfl
    | ok c => exact (h c).step s hs
  goes := by
    intro s s' hs hr
    cases x with
    | error e => cases hr
    | ok c => exact (h c).goes s s' hs hr

theorem Concludes.bind {x : Except ε γ} {y : β → Except ε γ} {F : γ → α → Except ε α} {G : γ → β → Except ε β}
    (hy : ∀ s, going s → y (inj s) = x) (h : ∀ c, Concludes going inj last (F c) (G c)) :
    Concludes going inj last (fun s => do let c ← x; F c s) (fun s => do let c ← y s; G c s) := by
  intro s hs
  simp only [hy s hs]
  cases x with
  | error e => rfl
  | ok c => exact h c s hs

/-- The walk goes on if the first step asks for more. -/
theorem Follows.andThen (hlast : ∀ s, going s → last s = .ok (inj s)) (h : Follows going inj last f g)
    (h' : Follows going inj last f' g') :
    Follows going inj last (fun s => do let r ← f s; if r.1 then f' r.2 else return (false, r.2))
      (fun s => do let r ← g s; if r.1 then g' r.2 else return (false, r.2)) where
  step := by
    intro s hs
    simp only [h.step s hs]
    cases hf : f s with
    | error e => rfl
    | ok r =>
        rcases r with ⟨_ | _, s'⟩
        · simp only [Bind.bind, Except.bind, pure, Except.pure, Bool.false_eq_true, if_false]
          cases last s' <;> rfl
        · have hgoing := h.goes s s' hs hf
          simp only [Bind.bind, Except.bind, pure, Except.pure, hlast s' hgoing, if_true]
          exact h'.step s' hgoing
  goes := by
    intro s s' hs hr
    cases hf : f s with
    | error e =>
        rw [hf] at hr
        cases hr
    | ok r =>
        rw [hf] at hr
        rcases r with ⟨_ | _, s''⟩
        · exact absurd (Prod.mk.inj (Except.ok.inj hr)).1 (by decide)
        · exact h'.goes s'' s' (h.goes s s'' hs hf) hr

/-- The walk comes to its result if the first step does not ask for more. -/
theorem Follows.conclude {next : Bool × α → Except ε α} {next' : Bool × β → Except ε β}
    (hlast : ∀ s, going s → last s = .ok (inj s)) (h : Follows going inj last f g)
    (hstop : ∀ s, next (false, s) = .ok s) (hstop' : ∀ t, next' (false, t) = .ok t)
    (h' : Concludes going inj last (fun s => next (true, s)) (fun t => next' (true, t))) :
    Concludes going inj last (fun s => f s >>= next) (fun t => g t >>= next') := by
  intro s hs
  simp only [h.step s hs]
  cases hf : f s with
  | error e => rfl
  | ok r =>
      rcases r with ⟨_ | _, s'⟩
      · simp only [Bind.bind, Except.bind, pure, Except.pure, hstop]
        cases last s' with
        | error e => rfl
        | ok t => exact hstop' t
      · have hgoing := h.goes s s' hs hf
        simp only [Bind.bind, Except.bind, pure, Except.pure, hlast s' hgoing]
        exact h' s' hgoing

theorem Follows.ite {c : Prop} [Decidable c] (h : Follows going inj last f g)
    (h' : Follows going inj last f' g') :
    Follows going inj last (fun s => if c then f s else f' s) (fun s => if c then g s else g' s) := by
  by_cases hc : c
  · simp only [if_pos hc]
    exact h
  · simp only [if_neg hc]
    exact h'

theorem Concludes.ite {c : Prop} [Decidable c] {F' : α → Except ε α} {G' : β → Except ε β}
    (h : Concludes going inj last F G) (h' : Concludes going inj last F' G') :
    Concludes going inj last (fun s => if c then F s else F' s) (fun s => if c then G s else G' s) := by
  by_cases hc : c
  · simp only [if_pos hc]
    exact h
  · simp only [if_neg hc]
    exact h'

end XviOs.Library.LastStep
