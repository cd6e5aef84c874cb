import Mathlib.Data.Set.Finite.Basic
import Mathlib.Data.Fintype.Pigeonhole
import Mathlib.Logic.Function.Basic
import Mathlib.Logic.Relation

namespace XviOs.Library.Walk

open Relation

variable {α : Type} {next next' : α → Option α} {a b c : α}

/-- One step of a walk: the successor, where there is one. -/
def Step (next : α → Option α) (a b : α) : Prop := next a = some b

/-- The walk from `a` on comes to an element without a successor. -/
inductive Ends (next : α → Option α) : α → Prop
  | stop {a : α} : next a = none → Ends next a
  | step {a b : α} : next a = some b → Ends next b → Ends next a

/-- The walk from `a` on comes to an element that it will come back to. -/
def RunsIntoCycle (next : α → Option α) (a : α) : Prop :=
  ∃ b, ReflTransGen (Step next) a b ∧ TransGen (Step next) b b

namespace Ends

theorem of_reach (h : Ends next a) (hr : ReflTransGen (Step next) a b) : Ends next b := by
  induction hr with
  | refl => exact h
  | tail _ hs ih =>
      cases ih with
      | stop hn => exact absurd (hn.symm.trans hs) (by simp)
      | step hn hb =>
          obtain rfl := Option.some.inj (hn.symm.trans hs)
          exact hb

theorem not_cycle (h : Ends next a) : ¬ TransGen (Step next) a a := by
  induction h with
  | stop hn =>
      intro hc
      obtain ⟨b, hs, -⟩ := TransGen.head'_iff.mp hc
      exact absurd (hn.symm.trans hs) (by simp)
  | step hn _ ih =>
      intro hc
      obtain ⟨b, hs, hr⟩ := TransGen.head'_iff.mp hc
      obtain rfl := Option.some.inj (hn.symm.trans hs)
      exact ih (TransGen.tail' hr hs)

/-- The successors of elements that the walk does not come to play no part. -/
theorem congr (h : Ends next a) (heq : ∀ x, ReflTransGen (Step next) a x → next' x = next x) : Ends next' a := by
  induction h with
  | stop hn => exact .stop ((heq _ .refl).trans hn)
  | step hn _ ih =>
      exact .step ((heq _ .refl).trans hn) (ih (fun x hx => heq x (.head hn hx)))

end Ends

/-- A walk through finitely many elements ends, unless it runs into a cycle. -/
theorem ends_iff (hfin : {b | ∃ a, next a = some b}.Finite) : Ends next a ↔ ¬ RunsIntoCycle next a := by
  constructor
  · rintro h ⟨b, hr, hc⟩
    exact (h.of_reach hr).not_cycle hc
  · intro hcycle
    by_contra hends
    obtain ⟨walk, hwalk⟩ : ∃ walk : Nat → α, walk = fun n => (fun x => (next x).getD x)^[n] a := ⟨_, rfl⟩
    have hnot (n : Nat) : ¬ Ends next (walk n) ∧ ReflTransGen (Step next) a (walk n) ∧
        next (walk n) = some (walk (n + 1)) := by
      have hsucc (n : Nat) (hn : ¬ Ends next (walk n)) : next (walk n) = some (walk (n + 1)) := by
        cases hx : next (walk n) with
        | none => exact absurd (.stop hx) hn
        | some b =>
            simp only [hwalk, Function.iterate_succ_apply'] at hx ⊢
            rw [hx]
            rfl
      induction n with
      | zero =>
          have h0 : walk 0 = a := by rw [hwalk]; rfl
          rw [← h0] at hends
          exact ⟨hends, by rw [h0], hsucc 0 hends⟩
      | succ n ih =>
          obtain ⟨hn, hr, hs⟩ := ih
          have hn' : ¬ Ends next (walk (n + 1)) := fun h => hn (.step hs h)
          exact ⟨hn', hr.tail hs, hsucc (n + 1) hn'⟩
    -- two of the elements passed are the same
    have hfinite : Finite {b | ∃ a, next a = some b} := hfin
    obtain ⟨i, j, hne, heq⟩ := Finite.exists_ne_map_eq_of_infinite
      (fun n => (⟨walk (n + 1), walk n, (hnot n).2.2⟩ : {b | ∃ a, next a = some b}))
    have hsame : walk (i + 1) = walk (j + 1) := congrArg Subtype.val heq
    have hpath (n k : Nat) : TransGen (Step next) (walk n) (walk (n + k + 1)) := by
      induction k with
      | zero => exact .single (hnot n).2.2
      | succ k ih => exact ih.tail (hnot (n + k + 1)).2.2
    rcases Nat.lt_or_gt_of_ne hne with hlt | hlt
    · refine hcycle ⟨walk (i + 1), (hnot _).2.1, ?_⟩
      have hp := hpath (i + 1) (j - i - 1)
      rwa [show i + 1 + (j - i - 1) + 1 = j + 1 by omega, ← hsame] at hp
    · refine hcycle ⟨walk (j + 1), (hnot _).2.1, ?_⟩
      have hp := hpath (j + 1) (i - j - 1)
      rwa [show j + 1 + (i - j - 1) + 1 = i + 1 by omega, hsame] at hp

/-! ## Walks that reset what they pass -/

section Reset

variable [DecidableEq α] {stop : α → Prop} [DecidablePred stop] {e : α → α} {z : α}

/-- The walk along the entries `e`, up to an entry that is a stop mark. -/
def entryStep (stop : α → Prop) [DecidablePred stop] (e : α → α) (a : α) : Option α :=
  if stop (e a) then none else some (e a)

/-- Where an entry was reset to `z`, a walk that ends has come to `z`, or has not met it. -/
theorem Ends.of_reset (hz : ¬ stop z) (h : Ends (entryStep stop (Function.update e c z)) a) :
    Ends (entryStep stop e) a ∨ Ends (entryStep stop e) z := by
  have hsame (x : α) (hx : x ≠ c) : entryStep stop (Function.update e c z) x = entryStep stop e x := by
    rw [entryStep, entryStep, Function.update_of_ne hx]
  have hreset : entryStep stop (Function.update e c z) c = some z := by
    rw [entryStep, Function.update_self, if_neg hz]
  induction h with
  | @stop x hn =>
      have hx : x ≠ c := by
        rintro rfl
        exact absurd (hn.symm.trans hreset) (by simp)
      exact .inl (.stop ((hsame x hx).symm.trans hn))
  | @step x y hn _ ih =>
      by_cases hx : x = c
      · subst hx
        obtain rfl := Option.some.inj (hreset.symm.trans hn)
        exact ih.elim .inr .inr
      · exact ih.imp (fun h => .step ((hsame x hx).symm.trans hn) h) id

/-- A walk that ends and does not come to `c` ends after the entry of `c` is reset, too. -/
theorem Ends.reset (h : Ends (entryStep stop e) a) (hc : ¬ ReflTransGen (Step (entryStep stop e)) a c) :
    Ends (entryStep stop (Function.update e c z)) a := by
  refine h.congr fun x hx => ?_
  have hne : x ≠ c := fun hxc => hc (hxc ▸ hx)
  rw [entryStep, entryStep, Function.update_of_ne hne]

end Reset

end XviOs.Library.Walk
