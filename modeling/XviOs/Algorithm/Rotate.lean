import XviOs.Algorithm.Sequence

namespace XviOs.Algorithm

open Library.StateProgram

section Definitions

variable {α : Type} (lo hi : Nat)

/-- The loop of `rotate`. Its result is `__write` and `__victim_ptr`, the place of the old first element. -/
def rotateLoop (last : Nat) : Nat → Nat → Nat → Nat → Sorter α (Nat × Nat)
  | 0, _, _, _ => fun _ => none
  | n + 1, read, write, victim =>
    if read = last then pure (write, victim)
    else do
      iterSwap lo hi read write
      rotateLoop last n (read + 1) (write + 1) (if write = victim then read else victim)

def rotateRounds : Nat → Nat → Nat → Nat → Sorter α Nat
  | 0, _, _, _ => fun _ => none
  | n + 1, first, middle, last =>
    if first = middle then pure last
    else if middle = last then pure first
    else do
      let (write, victim) ← rotateLoop lo hi last (last - middle + 1) middle first first
      let _ ← rotateRounds n write victim last
      return write

def rotate (first middle last : Nat) : Sorter α Nat := rotateRounds lo hi (last - first + 1) first middle last

variable (pred : α → Bool) (size buffer : Nat)

/-- The elements without the property go to the buffer, which holds no more than its bytes. -/
def bufferLoop (last : Nat) : Nat → Nat → Nat → List α → Sorter α (Nat × List α)
  | 0, _, _, _ => fun _ => none
  | n + 1, place, write, arr =>
    if place = last then pure (write, arr)
    else do
      let x ← read lo hi place
      if pred x then
        let _ ← (if place ≠ write then iterSwap lo hi place write else pure () : Sorter α Unit)
        bufferLoop last n (place + 1) (write + 1) arr
      else if (arr.length + 1) * size ≤ buffer then bufferLoop last n (place + 1) write (arr ++ [x])
      else fun _ => none

/-- They are put behind the others. -/
def copyBack (last : Nat) : Nat → List α → Sorter α Unit
  | place, [] => if place = last then pure () else fun _ => none
  | place, x :: arr =>
    if place = last then pure ()
    else do
      write lo hi place x
      copyBack last (place + 1) arr

/-- `__stable_partition`, for a buffer of this number of bytes and elements of this size. -/
def stablePartitionRounds : Nat → Nat → Nat → Nat → Sorter α Nat
  | 0, _, _, _ => fun _ => none
  | k + 1, first, last, n => do
    let start ← scanUp lo hi (fun x => pure (pred x)) (last - first + 1) first last
    let n := n - (start - first)
    if n ≤ 1 then pure start
    else if n = 2 then do
      let x ← read lo hi (start + 1)
      if pred x then do
        iterSwap lo hi start (start + 1)
        return start + 1
      else pure start
    else if n * size ≤ buffer then do
      let (boundary, arr) ← bufferLoop lo hi pred size buffer last (last - start + 1) start start []
      copyBack lo hi last boundary arr
      return boundary
    else do
      let middle := start + n / 2
      let bound1 ← stablePartitionRounds k start middle (n / 2)
      let bound2 ← stablePartitionRounds k middle last (n - n / 2)
      rotate lo hi bound1 middle bound2

/-- The largest buffer that there is memory for, or none. -/
def temporaryBuffer (new : Nat → Bool) : Nat → Nat → Nat
  | 0, _ => 0
  | k + 1, bytes =>
    if 4 * size ≤ bytes then if new bytes then bytes else temporaryBuffer new k (bytes / 2) else 0

/-- In a constant expression no buffer is taken. -/
def stablePartition (new : Nat → Bool) (constant : Bool) (first last : Nat) : Sorter α Nat :=
  let n := last - first
  let buffer := if constant then 0 else temporaryBuffer size new (n * size + 1) (n * size)
  stablePartitionRounds lo hi pred size buffer (n + 1) first last n

end Definitions

variable {α : Type} {lo hi first middle last i j p : Nat} {f g h : Nat → α}

section Values

theorem length_values (f : Nat → α) (first last : Nat) : (values f first last).length = last - first := by
  rw [values, List.length_map, List.length_range']

theorem values_append (h1 : first ≤ middle) (h2 : middle ≤ last) :
    values f first middle ++ values f middle last = values f first last := by
  obtain ⟨m, rfl⟩ := Nat.exists_eq_add_of_le h1
  obtain ⟨n, rfl⟩ := Nat.exists_eq_add_of_le h2
  rw [values, values, values, ← List.map_append, Nat.add_sub_cancel_left, Nat.add_sub_cancel_left, Nat.add_assoc,
    Nat.add_sub_cancel_left, List.range'_append_1]

theorem values_snoc (h : first ≤ i) : values f first (i + 1) = values f first i ++ [f i] := by
  rw [← values_append h (Nat.le_succ i), values_cons (Nat.lt_succ_self i), values_self]

theorem values_swap_of_lt (hi1 : i < first) (hj : j < first) :
    values (f ∘ Equiv.swap i j) first last = values f first last := by
  apply values_congr
  intro k hk _
  rw [Function.comp_apply, Equiv.swap_apply_of_ne_of_ne (by omega) (by omega)]

/-- Where the values of a range are cut, by the lengths of the parts. -/
theorem values_eq_append {l r : List α} (hle : first ≤ last) (h : values f first last = l ++ r) :
    first + l.length ≤ last ∧ values f first (first + l.length) = l ∧ values f (first + l.length) last = r := by
  have hlen := congrArg List.length h
  rw [length_values, List.length_append] at hlen
  have hcut : first + l.length ≤ last := by omega
  rw [← values_append (Nat.le_add_right first l.length) hcut] at h
  obtain ⟨hl, hr⟩ := List.append_inj h (by rw [length_values, Nat.add_sub_cancel_left])
  exact ⟨hcut, hl, hr⟩

end Values

/-- Nothing outside the range changes. -/
def SameOutside (first last : Nat) (f g : Nat → α) : Prop := ∀ i, ¬ (first ≤ i ∧ i < last) → g i = f i

namespace SameOutside

theorem refl (first last : Nat) (f : Nat → α) : SameOutside first last f f := fun _ _ => rfl

theorem trans (hfg : SameOutside first last f g) (hgh : SameOutside first last g h) : SameOutside first last f h :=
  fun i hi => (hgh i hi).trans (hfg i hi)

theorem mono {first' last' : Nat} (h : SameOutside first' last' f g) (h1 : first ≤ first') (h2 : last' ≤ last) :
    SameOutside first last f g := fun i hi => h i (by omega)

theorem swap (hi1 : first ≤ i) (hi2 : i < last) (hj1 : first ≤ j) (hj2 : j < last) :
    SameOutside first last f (f ∘ Equiv.swap i j) := by
  intro k hk
  rw [Function.comp_apply, Equiv.swap_apply_of_ne_of_ne (by omega) (by omega)]

/-- The values before and behind the range are the same. -/
theorem values_eq (h : SameOutside first last f g) (hout : j ≤ first ∨ last ≤ i) : values g i j = values f i j :=
  values_congr fun k hk1 hk2 => h k (by omega)

end SameOutside

/-- What the loop swaps to the front is what was to be read. The old front is behind it, from the victim on. -/
theorem rotateLoop_leads {n r w v : Nat} (hlo : lo ≤ w) (hwv : w ≤ v) (hvr : v < r) (hr : r ≤ last) (hhi : last ≤ hi)
    (hn : last - r < n) :
    Leads (rotateLoop lo hi last n r w v) f fun p g =>
      p.1 = w + (last - r) ∧ p.1 ≤ p.2 ∧ p.2 < last ∧ values g w p.1 = values f r last ∧
        values g p.2 last ++ values g p.1 p.2 = values f v r ++ values f w v ∧ SameOutside w last f g := by
  induction n generalizing r w v f with
  | zero => exact absurd hn (Nat.not_lt_zero _)
  | succ n ih =>
    rw [rotateLoop]
    by_cases hend : r = last
    · subst hend
      rw [if_pos rfl]
      refine Leads.pure ⟨by simp, hwv, hvr, ?_, rfl, SameOutside.refl _ _ _⟩
      rw [values_self, values_self]
    rw [if_neg hend]
    apply Leads.bind_eq (iterSwap_eq (by omega) (by omega) hlo (by omega))
    have hat : (f ∘ Equiv.swap r w) w = f r := by rw [Function.comp_apply, Equiv.swap_apply_right]
    have hback : (f ∘ Equiv.swap r w) r = f w := by rw [Function.comp_apply, Equiv.swap_apply_left]
    have hbetween (a b : Nat) (ha : w < a) (hb : b ≤ r) : values (f ∘ Equiv.swap r w) a b = values f a b := by
      apply values_congr
      intro k hk1 hk2
      rw [Function.comp_apply, Equiv.swap_apply_of_ne_of_ne (by omega) (by omega)]
    have hv : w + 1 ≤ (if w = v then r else v) ∧ (if w = v then r else v) < r + 1 := by
      split_ifs <;> omega
    apply (ih (hlo.trans (Nat.le_succ w)) hv.1 hv.2 (by omega) (by omega)).mono
    rintro ⟨p, q⟩ g ⟨hp, hpq, hq, hfront, hrest, hsame⟩
    have hw : g w = f r := by rw [hsame w (by omega), hat]
    refine ⟨by simp only at hp ⊢; omega, hpq, hq, ?_, ?_, ?_⟩
    · have hwp : w < p := by
        simp only at hp
        omega
      rw [values_cons hwp, hw, values_cons (by omega : r < last), hfront, values_swap_of_lt (by omega) (by omega)]
    · rw [hrest]
      by_cases hwv' : w = v
      · subst hwv'
        rw [if_pos rfl, values_snoc (Nat.le_refl r), values_self, hback, values_self, hbetween _ _ (by omega) (by omega),
          values_cons hvr, List.append_nil]
        rfl
      · rw [if_neg hwv', values_snoc hvr.le, hback, hbetween _ _ (by omega) (by omega),
          hbetween _ _ (by omega) (by omega), List.append_assoc, values_cons (by omega : w < v)]
        rfl
    · exact (SameOutside.swap (by omega) (by omega) (Nat.le_refl w) (by omega)).trans
        (hsame.mono (Nat.le_succ w) (Nat.le_refl last))

theorem rotateRounds_leads {n : Nat} (hlo : lo ≤ first) (h1 : first ≤ middle) (h2 : middle ≤ last) (hhi : last ≤ hi)
    (hn : last - first < n) :
    Leads (rotateRounds lo hi n first middle last) f fun p g =>
      p = first + (last - middle) ∧ values g first last = values f middle last ++ values f first middle ∧
        SameOutside first last f g := by
  induction n generalizing first middle f with
  | zero => exact absurd hn (Nat.not_lt_zero _)
  | succ n ih =>
    rw [rotateRounds]
    by_cases hfirst : first = middle
    · subst hfirst
      rw [if_pos rfl]
      refine Leads.pure ⟨by omega, ?_, SameOutside.refl _ _ _⟩
      rw [values_self, List.append_nil]
    rw [if_neg hfirst]
    by_cases hlast : middle = last
    · subst hlast
      rw [if_pos rfl]
      refine Leads.pure ⟨by omega, ?_, SameOutside.refl _ _ _⟩
      rw [values_self, List.nil_append]
    rw [if_neg hlast]
    apply (rotateLoop_leads hlo (Nat.le_refl first) (by omega) h2 hhi (Nat.lt_succ_self _)).bind
    rintro ⟨write, victim⟩ g ⟨hwrite, hwv, hv, hfront, hrest, hsame⟩
    simp only at hwrite hwv hv hfront hrest ⊢
    apply (ih (by omega) hwv hv.le (by omega)).bind
    rintro _ h ⟨-, hback, hsame'⟩
    refine Leads.pure ⟨hwrite, ?_, hsame.trans (hsame'.mono (by omega) (Nat.le_refl last))⟩
    rw [← values_append (f := h) (by omega : first ≤ write) (by omega), hback, hrest, values_self, List.append_nil,
      hsame'.values_eq (Or.inl (Nat.le_refl write)), hfront]

theorem rotate_leads (hlo : lo ≤ first) (h1 : first ≤ middle) (h2 : middle ≤ last) (hhi : last ≤ hi) :
    Leads (rotate lo hi first middle last) f fun p g =>
      p = first + (last - middle) ∧ values g first last = values f middle last ++ values f first middle ∧
        SameOutside first last f g :=
  rotateRounds_leads hlo h1 h2 hhi (Nat.lt_succ_self _)

section Partitioning

variable {pred : α → Bool} {size buffer : Nat}

/-- The elements with the property are in front, in their order, and the others behind them in theirs. -/
structure StablyPartitioned (pred : α → Bool) (first last : Nat) (f : Nat → α) (p : Nat) (g : Nat → α) : Prop where
  boundary : p = first + ((values f first last).filter pred).length
  values_eq : values g first last = (values f first last).filter pred ++ (values f first last).filter (!pred ·)
  outside : SameOutside first last f g

theorem values_filter_self {P : α → Bool} (h : ∀ i, first ≤ i → i < last → P (f i) = true) :
    (values f first last).filter P = values f first last := by
  rw [List.filter_eq_self]
  intro x hx
  obtain ⟨i, hi, rfl⟩ := List.mem_map.mp hx
  rw [List.mem_range'_1] at hi
  exact h i hi.1 (by omega)

theorem values_filter_nil {P : α → Bool} (h : ∀ i, first ≤ i → i < last → P (f i) = false) :
    (values f first last).filter P = [] := by
  rw [List.filter_eq_nil_iff]
  intro x hx
  obtain ⟨i, hi, rfl⟩ := List.mem_map.mp hx
  rw [List.mem_range'_1] at hi
  rw [h i hi.1 (by omega)]
  decide

/-- Elements with the property in front of what is partitioned are in their place. -/
theorem StablyPartitioned.extend {start : Nat} (h : StablyPartitioned pred start last f p g) (h1 : first ≤ start)
    (h2 : start ≤ last) (htrue : ∀ i, first ≤ i → i < start → pred (f i) = true) :
    StablyPartitioned pred first last f p g := by
  have hfront : (values f first start).filter pred = values f first start := values_filter_self htrue
  have hnone : (values f first start).filter (!pred ·) = [] :=
    values_filter_nil fun i hi1 hi2 => by rw [htrue i hi1 hi2]; rfl
  constructor
  · rw [h.boundary, ← values_append h1 h2, List.filter_append, hfront, List.length_append, length_values]
    omega
  · rw [← values_append h1 h2, ← values_append h1 h2, List.filter_append, List.filter_append, hfront, hnone,
      h.values_eq, h.outside.values_eq (Or.inl (Nat.le_refl start)), List.append_assoc, List.nil_append]
  · exact h.outside.mono h1 (Nat.le_refl last)

theorem StablyPartitioned.bounds (h : StablyPartitioned pred first last f p g) (hle : first ≤ last) :
    first ≤ p ∧ p ≤ last := by
  have hlen := List.length_filter_le pred (values f first last)
  rw [length_values] at hlen
  rw [h.boundary]
  omega

theorem StablyPartitioned.of_false (hfalse : ∀ i, first ≤ i → i < last → pred (f i) = false) :
    StablyPartitioned pred first last f first f := by
  have hnone : (values f first last).filter pred = [] := values_filter_nil hfalse
  have hall : (values f first last).filter (!pred ·) = values f first last :=
    values_filter_self fun i hi1 hi2 => by rw [hfalse i hi1 hi2]; rfl
  refine ⟨?_, ?_, SameOutside.refl _ _ _⟩
  · rw [hnone]
    rfl
  · rw [hnone, hall, List.nil_append]

/-- One element without the property and one with it change places. -/
theorem StablyPartitioned.swap_pair (hlast : first + 2 = last) (h1 : pred (f first) = false)
    (h2 : pred (f (first + 1)) = true) :
    StablyPartitioned pred first last f (first + 1) (f ∘ Equiv.swap first (first + 1)) := by
  subst hlast
  have hpair (f : Nat → α) : values f first (first + 2) = [f first, f (first + 1)] := by
    rw [values_cons (by omega), values_cons (by omega), values_self]
  refine ⟨?_, ?_, SameOutside.swap (Nat.le_refl _) (by omega) (by omega) (by omega)⟩
  · rw [hpair]
    simp [h1, h2]
  · rw [hpair, hpair]
    simp [h1, h2]

theorem bufferLoop_leads {n r w : Nat} {arr : List α} (hlo : lo ≤ w) (hwr : w ≤ r) (hr : r ≤ last) (hhi : last ≤ hi)
    (hn : last - r < n) (hfits : (arr.length + (last - r)) * size ≤ buffer) :
    Leads (bufferLoop lo hi pred size buffer last n r w arr) f fun p g =>
      p.1 = w + ((values f r last).filter pred).length ∧ p.2 = arr ++ (values f r last).filter (!pred ·) ∧
        values g w p.1 = (values f r last).filter pred ∧ SameOutside w last f g := by
  induction n generalizing r w f arr with
  | zero => exact absurd hn (Nat.not_lt_zero _)
  | succ n ih =>
    rw [bufferLoop]
    by_cases hend : r = last
    · subst hend
      rw [if_pos rfl, values_self]
      refine Leads.pure ⟨rfl, (List.append_nil arr).symm, values_self, SameOutside.refl _ _ _⟩
    rw [if_neg hend]
    apply Leads.bind_eq (read_eq (by omega) (by omega))
    rw [values_cons (by omega : r < last)]
    cases hpred : pred (f r) with
    | true =>
      rw [if_pos rfl, List.filter_cons_of_pos hpred, List.filter_cons_of_neg (by simp [hpred])]
      have hmove : (if r ≠ w then iterSwap lo hi r w else pure ()) f = some ((), f ∘ Equiv.swap r w) := by
        by_cases hsame : r = w
        · rw [if_neg (not_not.mpr hsame), hsame, Equiv.swap_self]
          rfl
        · rw [if_pos hsame]
          exact iterSwap_eq (by omega) (by omega) hlo (by omega)
      have hat : (f ∘ Equiv.swap r w) w = f r := by rw [Function.comp_apply, Equiv.swap_apply_right]
      apply Leads.bind_eq hmove
      have hfits' : (arr.length + (last - (r + 1))) * size ≤ buffer :=
        (Nat.mul_le_mul_right size (by omega)).trans hfits
      apply (ih (by omega) (by omega) (by omega) (by omega) hfits').mono
      rintro ⟨p, out⟩ g ⟨hp, hout, hvalues, hsame⟩
      rw [values_swap_of_lt (by omega) (by omega)] at hp hout hvalues
      simp only at hp hout hvalues ⊢
      refine ⟨by rw [hp, List.length_cons]; omega, hout, ?_, ?_⟩
      · rw [values_cons (by omega), hvalues, hsame w (by omega), hat]
      · exact (SameOutside.swap (by omega) (by omega) (Nat.le_refl w) (by omega)).trans
          (hsame.mono (Nat.le_succ w) (Nat.le_refl last))
    | false =>
      have hroom : (arr.length + 1) * size ≤ buffer := (Nat.mul_le_mul_right size (by omega)).trans hfits
      have hfits' : ((arr ++ [f r]).length + (last - (r + 1))) * size ≤ buffer := by
        rw [List.length_append, List.length_singleton]
        exact (Nat.mul_le_mul_right size (by omega)).trans hfits
      rw [if_neg Bool.false_ne_true, if_pos hroom, List.filter_cons_of_neg (by simp [hpred]),
        List.filter_cons_of_pos (by simp [hpred])]
      apply (ih hlo (by omega) (by omega) (by omega) hfits').mono
      rintro ⟨p, out⟩ g ⟨hp, hout, hvalues, hsame⟩
      exact ⟨hp, by simp only at hout ⊢; rw [hout, List.append_assoc]; rfl, hvalues, hsame⟩

theorem copyBack_leads {place : Nat} {arr : List α} (hlo : lo ≤ place) (hlen : place + arr.length = last)
    (hhi : last ≤ hi) :
    Leads (copyBack lo hi last place arr) f fun _ g => values g place last = arr ∧ SameOutside place last f g := by
  induction arr generalizing place f with
  | nil =>
    have hend : place = last := hlen
    subst hend
    rw [copyBack, if_pos rfl]
    exact Leads.pure ⟨values_self, SameOutside.refl _ _ _⟩
  | cons x arr ih =>
    rw [List.length_cons] at hlen
    rw [copyBack, if_neg (by omega)]
    apply Leads.bind_eq (write_eq hlo (by omega))
    apply (ih (by omega) (by omega)).mono
    rintro _ g ⟨hvalues, hsame⟩
    refine ⟨?_, fun i hi => ?_⟩
    · rw [values_cons (by omega), hvalues, hsame place (by omega), Function.update_self]
    · rw [hsame i (by omega), Function.update_of_ne (by omega)]

/-- The two halves are partitioned, and the middle is turned round. -/
theorem StablyPartitioned.rotate {b1 b2 : Nat} {k : Nat → α} (h1 : first ≤ middle) (h2 : middle ≤ last)
    (hfront : StablyPartitioned pred first middle f b1 g) (hback : StablyPartitioned pred middle last g b2 h)
    (hp : p = b1 + (b2 - middle)) (hvalues : values k b1 b2 = values h middle b2 ++ values h b1 middle)
    (hsame : SameOutside b1 b2 h k) : StablyPartitioned pred first last f p k := by
  have hg : values g middle last = values f middle last := hfront.outside.values_eq (Or.inr (Nat.le_refl middle))
  have hh : values h first middle = values g first middle := hback.outside.values_eq (Or.inl (Nat.le_refl middle))
  obtain ⟨hcut1, hT1, hF1⟩ := values_eq_append h1 (hh.trans hfront.values_eq)
  obtain ⟨hcut2, hT2, hF2⟩ := values_eq_append h2 hback.values_eq
  rw [← hfront.boundary] at hcut1 hT1 hF1
  rw [← hback.boundary] at hcut2 hT2 hF2
  rw [hg] at hT2 hF2
  have hb2 := hback.boundary
  rw [hg] at hb2
  have hb1 := hfront.boundary
  constructor
  · rw [hp, hb1, hb2, ← values_append h1 h2, List.filter_append, List.length_append]
    omega
  · rw [← values_append (f := k) (by omega : first ≤ b1) (by omega : b1 ≤ last),
      ← values_append (f := k) (by omega : b1 ≤ b2) hcut2, hvalues, hsame.values_eq (Or.inl (Nat.le_refl b1)),
      hsame.values_eq (Or.inr (Nat.le_refl b2)), hT1, hF1, hT2, hF2, ← values_append h1 h2, List.filter_append,
      List.filter_append]
    simp only [List.append_assoc]
  · exact ((hfront.outside.mono (Nat.le_refl first) h2).trans (hback.outside.mono h1 (Nat.le_refl last))).trans
      (hsame.mono (by omega) hcut2)

theorem stablePartitionRounds_leads {k n : Nat} (hlo : lo ≤ first) (hle : first ≤ last) (hhi : last ≤ hi)
    (hn : n = last - first) (hk : n < k) :
    Leads (stablePartitionRounds lo hi pred size buffer k first last n) f (StablyPartitioned pred first last f) := by
  induction k generalizing first last n f with
  | zero => exact absurd hk (Nat.not_lt_zero _)
  | succ k ih =>
    rw [stablePartitionRounds]
    apply (scanUp_leads (fun x => rfl) hlo hhi hle (Nat.lt_succ_self _)).bind
    rintro start f ⟨rfl, h1, h2, htrue, hstop⟩
    have hm : n - (start - first) = last - start := by omega
    rw [hm]
    apply Leads.mono (Q := StablyPartitioned pred start last _) _ fun p g h => h.extend h1 h2 htrue
    by_cases hone : last - start ≤ 1
    · rw [if_pos hone]
      apply Leads.pure
      apply StablyPartitioned.of_false
      intro i hi1 hi2
      rw [show i = start by omega]
      exact hstop (by omega)
    rw [if_neg hone]
    have hstart := hstop (by omega)
    by_cases htwo : last - start = 2
    · rw [if_pos htwo]
      apply Leads.bind_eq (read_eq (by omega) (by omega))
      cases hsecond : pred _ with
      | true =>
        rw [if_pos rfl]
        apply Leads.bind_eq (iterSwap_eq (by omega) (by omega) (by omega) (by omega))
        exact Leads.pure (StablyPartitioned.swap_pair (by omega) hstart hsecond)
      | false =>
        apply Leads.pure
        apply StablyPartitioned.of_false
        intro i hi1 hi2
        obtain rfl | rfl : i = start ∨ i = start + 1 := by omega
        · exact hstart
        · exact hsecond
    rw [if_neg htwo]
    by_cases hbuffer : (last - start) * size ≤ buffer
    · rw [if_pos hbuffer]
      apply (bufferLoop_leads (by omega) (Nat.le_refl start) h2 hhi (Nat.lt_succ_self _)
        (by rwa [List.length_nil, Nat.zero_add])).bind
      rintro ⟨boundary, arr⟩ g ⟨hboundary, harr, hfront, hsame⟩
      simp only [List.nil_append] at hboundary harr hfront ⊢
      have hlen := length_values f start last
      rw [List.length_eq_length_filter_add pred] at hlen
      have hend : boundary + arr.length = last := by
        rw [harr, hboundary]
        omega
      apply (copyBack_leads (by omega) hend hhi).bind
      rintro _ h ⟨hback, hsame'⟩
      refine Leads.pure ⟨hboundary, ?_, hsame.trans (hsame'.mono (by omega) (Nat.le_refl last))⟩
      rw [← values_append (by omega : start ≤ boundary) (by omega), hback,
        hsame'.values_eq (Or.inl (Nat.le_refl boundary)), hfront, harr]
    · rw [if_neg hbuffer]
      apply (ih (by omega) (by omega) (by omega) (by omega) (by omega)).bind
      intro b1 g hpart1
      apply (ih (by omega) (by omega) hhi (by omega) (by omega)).bind
      intro b2 h hpart2
      obtain ⟨hb1, hb1m⟩ := hpart1.bounds (by omega)
      obtain ⟨hmb2, hb2⟩ := hpart2.bounds (by omega)
      apply (rotate_leads (by omega) hb1m hmb2 (hb2.trans hhi)).mono
      rintro p k ⟨hp, hvalues, hsame⟩
      exact hpart1.rotate (by omega) (by omega) hpart2 hp hvalues hsame

/-- The place that the element at the front moves to. -/
def oldFirst (first middle last : Nat) : Nat := if middle = first then first else first + (last - middle)

/-- The first range behind the second, and where its front is. -/
structure Rotated (first middle last : Nat) (f : Nat → α) (p : Nat) (g : Nat → α) : Prop where
  position : p = first + (last - middle)
  front : first < middle → middle < last → p < last ∧ g p = f first
  values_eq : values g first last = values f middle last ++ values f first middle
  outside : SameOutside first last f g

/-- `rotate` gives the new position of the old front, and the end when the front does not move. -/
theorem rotate_stablePartition (pred : α → Bool) (size : Nat) (new : Nat → Bool) (constant : Bool) (f : Nat → α)
    (h1 : first ≤ middle) (h2 : middle ≤ last) :
    (Leads (rotate first last first middle last) f fun p g =>
        Rotated first middle last f p g ∧ (first < middle → p = oldFirst first middle last) ∧
          (first = middle → p = last)) ∧
      Leads (stablePartition first last pred size new constant first last) f (StablyPartitioned pred first last f) ∧
      ∀ buffer, Leads (stablePartitionRounds first last pred size buffer (last - first + 1) first last (last - first)) f
        (StablyPartitioned pred first last f) := by
  have hpartition (buffer : Nat) :
      Leads (stablePartitionRounds first last pred size buffer (last - first + 1) first last (last - first)) f
        (StablyPartitioned pred first last f) :=
    stablePartitionRounds_leads (Nat.le_refl _) (h1.trans h2) (Nat.le_refl _) rfl (Nat.lt_succ_self _)
  refine ⟨?_, hpartition _, hpartition⟩
  apply (rotate_leads (Nat.le_refl _) h1 h2 (Nat.le_refl _)).mono
  rintro p g ⟨hp, hvalues, hsame⟩
  refine ⟨⟨hp, fun hlt hlt' => ⟨by omega, ?_⟩, hvalues, hsame⟩, ?_, ?_⟩
  · have hcut : first + (values f middle last).length = p := by rw [length_values, hp]
    obtain ⟨-, -, hback⟩ := values_eq_append (h1.trans h2) hvalues
    rw [hcut, values_cons (by omega : p < last), values_cons (by omega : first < middle)] at hback
    exact (List.cons.inj hback).1
  · intro hlt
    rw [oldFirst, if_neg hlt.ne', hp]
  · rintro rfl
    omega

/-- The numbers from 0 to 4 with the middle at 2. -/
theorem rotate_stablePartition_five :
    (Leads (rotate 0 5 0 2 5) id fun p g => Rotated 0 2 5 id p g) ∧
      Leads (stablePartition 0 5 (fun x => x % 2 == 0) 4 (fun _ => true) false 0 5) id
        (StablyPartitioned (fun x => x % 2 == 0) 0 5 id) := by
  obtain ⟨hrotate, hpartition, -⟩ := rotate_stablePartition (fun x => x % 2 == 0) 4 (fun _ => true) false id
    (by decide : 0 ≤ 2) (by decide : 2 ≤ 5)
  exact ⟨hrotate.mono fun p g h => h.1, hpartition⟩

/-- With the middle at the front of one element, the end is returned. -/
theorem rotate_at_front : ¬ ∀ (first middle last : Nat) (f : Nat → Nat), first ≤ middle → middle ≤ last →
    Leads (rotate first last first middle last) f fun p _ => p = oldFirst first middle last := by
  intro h
  obtain ⟨p, g, hrun, hp⟩ := h 0 0 1 id (Nat.le_refl 0) (Nat.zero_le 1)
  have hend : (rotate 0 1 0 0 1 (id : Nat → Nat)).map Prod.fst = some 1 := rfl
  rw [hrun, hp] at hend
  cases hend

end Partitioning

end XviOs.Algorithm
