import Mathlib.Data.List.Basic
import Mathlib.Data.List.Nodup
import Mathlib.Logic.Function.Basic

namespace XviOs.Library.Chain

variable {α : Type} {next next' : α → α} {stop : α → Prop} {a b c x : α} {l l₁ l₂ : List α}

/-- The elements that `next` leads through from `a` on, up to the one whose successor
is a stop mark. -/
inductive ChainFrom (next : α → α) (stop : α → Prop) : α → List α → Prop
  | last {a : α} : stop (next a) → ChainFrom next stop a [a]
  | cons {a : α} {l : List α} : ¬ stop (next a) → ChainFrom next stop (next a) l → ChainFrom next stop a (a :: l)

namespace ChainFrom

theorem head (h : ChainFrom next stop a l) : ∃ t, l = a :: t := by
  cases h <;> exact ⟨_, rfl⟩

theorem ne_nil (h : ChainFrom next stop a l) : l ≠ [] := by
  obtain ⟨t, rfl⟩ := h.head
  exact List.cons_ne_nil a t

theorem uncons (h : ChainFrom next stop a (b :: l)) (hl : l ≠ []) :
    a = b ∧ ¬ stop (next a) ∧ ChainFrom next stop (next a) l := by
  cases h with
  | last => exact absurd rfl hl
  | cons hn ht => exact ⟨rfl, hn, ht⟩

theorem unique (h : ChainFrom next stop a l₁) (h' : ChainFrom next stop a l₂) : l₁ = l₂ := by
  induction h generalizing l₂ with
  | last hs =>
      cases h' with
      | last => rfl
      | cons hn => exact absurd hs hn
  | cons hn _ ih =>
      cases h' with
      | last hs => exact absurd hs hn
      | cons _ ht => rw [ih ht]

theorem of_mem (h : ChainFrom next stop a l) (hx : x ∈ l) : ∃ t, l = l.take (l.length - t.length) ++ t ∧
    ChainFrom next stop x t := by
  induction h with
  | @last a hs =>
      obtain rfl := List.mem_singleton.mp hx
      exact ⟨_, by simp, .last hs⟩
  | @cons a l hn ht ih =>
      rcases List.mem_cons.mp hx with rfl | hx
      · exact ⟨_, by simp, .cons hn ht⟩
      · obtain ⟨t, hl, hc⟩ := ih hx
        refine ⟨t, ?_, hc⟩
        have hlen := congrArg List.length hl
        have hle : t.length ≤ l.length := by
          rw [hlen]
          simp
        rw [List.length_cons, Nat.succ_sub hle, List.take_succ_cons, List.cons_append, ← hl]

/-- A chain that comes to its end does not run in a circle. -/
theorem nodup (h : ChainFrom next stop a l) : l.Nodup := by
  induction h with
  | last => exact List.nodup_singleton _
  | @cons a l hn ht ih =>
      refine List.nodup_cons.mpr ⟨fun ha => ?_, ih⟩
      obtain ⟨t, hl, hc⟩ := ht.of_mem ha
      have heq := hc.unique (.cons hn ht)
      have hlen := congrArg List.length hl
      have : t.length = l.length + 1 := by rw [heq]; rfl
      simp only [List.length_append, List.length_take] at hlen
      omega

theorem suffix (h : ChainFrom next stop a (l₁ ++ b :: l₂)) : ChainFrom next stop b (b :: l₂) := by
  induction l₁ generalizing a with
  | nil =>
      obtain ⟨t, ht⟩ := h.head
      obtain ⟨rfl, -⟩ := List.cons.inj ht
      exact h
  | cons c l₁ ih =>
      exact ih (h.uncons (by simp)).2.2

/-- Only the successors of its own elements make a chain. -/
theorem congr (h : ChainFrom next stop a l) (heq : ∀ x ∈ l, next' x = next x) : ChainFrom next' stop a l := by
  induction h with
  | @last a hs => exact .last (by rwa [heq a (by simp)])
  | @cons a l hn ht ih =>
      have ha := heq a (by simp)
      refine .cons (by rwa [ha]) ?_
      rw [ha]
      exact ih (fun x hx => heq x (by simp [hx]))

end ChainFrom

end XviOs.Library.Chain
