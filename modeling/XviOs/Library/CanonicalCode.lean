import Mathlib.Algebra.Order.BigOperators.Group.Finset
import Mathlib.Data.List.GetD
import Mathlib.Tactic

namespace XviOs.Library.Trie

variable {N : Type} {child child' : N → Bool → Option N} {label : N → List Bool} {P : N → Prop} {n m : N}
  {p q : List Bool} {b : Bool}

/-- The node that a word leads to from `n`. -/
def walk (child : N → Bool → Option N) (n : N) : List Bool → Option N
  | [] => some n
  | b :: p => (child n b).bind fun c => walk child c p

theorem walk_append : walk child n (p ++ q) = (walk child n p).bind fun m => walk child m q := by
  induction p generalizing n with
  | nil => rfl
  | cons b p ih =>
      rw [List.cons_append, walk, walk]
      cases child n b with
      | none => rfl
      | some c => exact ih

theorem walk_snoc (h : walk child n p = some m) : walk child n (p ++ [b]) = child m b := by
  rw [walk_append, h]
  cases hc : child m b <;> simp [walk, hc]

/-- Where each child's label is that of its parent and one bit, a walk spells out a label. -/
theorem label_walk (hchild : ∀ n, P n → ∀ b c, child n b = some c → P c ∧ label c = label n ++ [b])
    (hn : P n) (h : walk child n p = some m) : P m ∧ label m = label n ++ p := by
  induction p generalizing n with
  | nil =>
      obtain rfl := Option.some.inj h
      exact ⟨hn, (List.append_nil _).symm⟩
  | cons b p ih =>
      rw [walk, Option.bind_eq_some_iff] at h
      obtain ⟨c, hc, hw⟩ := h
      obtain ⟨hPc, hlabel⟩ := hchild n hn b c hc
      obtain ⟨hPm, hm⟩ := ih hPc hw
      exact ⟨hPm, by rw [hm, hlabel, List.append_assoc, List.singleton_append]⟩

/-- A walk is not changed by new children. -/
theorem walk_mono (hP : ∀ n, P n → ∀ b c, child n b = some c → P c)
    (hext : ∀ n, P n → ∀ b c, child n b = some c → child' n b = some c) (hn : P n)
    (h : walk child n p = some m) : walk child' n p = some m := by
  induction p generalizing n with
  | nil => exact h
  | cons b p ih =>
      rw [walk, Option.bind_eq_some_iff] at h
      obtain ⟨c, hc, hw⟩ := h
      rw [walk, hext n hn b c hc]
      exact ih (hP n hn b c hc) hw

/-- The last step of a walk. -/
theorem exists_of_walk_snoc (h : walk child n (p ++ [b]) = some m) :
    ∃ c, walk child n p = some c ∧ child c b = some m := by
  rw [walk_append, Option.bind_eq_some_iff] at h
  obtain ⟨c, hc, hw⟩ := h
  rw [walk, Option.bind_eq_some_iff] at hw
  obtain ⟨d, hd, hm⟩ := hw
  obtain rfl := Option.some.inj hm
  exact ⟨c, hc, hd⟩

end XviOs.Library.Trie

namespace XviOs.Library.CanonicalCode

/-- The low `n` bits of a number, from the most significant one on. -/
def bitsOf (v : Nat) : Nat → List Bool
  | 0 => []
  | n + 1 => v.testBit n :: bitsOf v n

@[simp] theorem length_bitsOf (v n : Nat) : (bitsOf v n).length = n := by
  induction n with
  | zero => rfl
  | succ n ih => simp [bitsOf, ih]

theorem bitsOf_add (v d k : Nat) : bitsOf v (d + k) = bitsOf (v / 2 ^ k) d ++ bitsOf v k := by
  induction d with
  | zero => simp [bitsOf]
  | succ d ih => rw [Nat.add_right_comm, bitsOf, ih, bitsOf, Nat.testBit_div_two_pow, List.cons_append]

theorem bitsOf_congr {v w n : Nat} (h : ∀ k < n, v.testBit k = w.testBit k) : bitsOf v n = bitsOf w n := by
  induction n with
  | zero => rfl
  | succ n ih => rw [bitsOf, bitsOf, h n (by omega), ih fun k hk => h k (by omega)]

theorem bitsOf_injective {v w n : Nat} (hv : v < 2 ^ n) (hw : w < 2 ^ n) (h : bitsOf v n = bitsOf w n) : v = w := by
  apply Nat.eq_of_testBit_eq
  intro k
  by_cases hk : k < n
  · clear hv hw
    induction n with
    | zero => omega
    | succ n ih =>
        obtain ⟨hbit, hrest⟩ := List.cons.inj h
        rcases Nat.lt_succ_iff_lt_or_eq.mp hk with hk | rfl
        · exact ih hrest hk
        · exact hbit
  · have hle : 2 ^ n ≤ 2 ^ k := Nat.pow_le_pow_right (by decide) (not_lt.mp hk)
    rw [Nat.testBit_lt_two_pow (hv.trans_le hle), Nat.testBit_lt_two_pow (hw.trans_le hle)]

variable (lengths : List Nat)

/-- The number of symbols with a code of `l` bits; a symbol of length 0 has none. -/
def count (l : Nat) : Nat := if l = 0 then 0 else lengths.count l

/-- The first of the codes of `l` bits. -/
def firstCode : Nat → Nat
  | 0 => 0
  | l + 1 => 2 * (firstCode l + count lengths l)

/-- The number of symbols before `i` that have the same length. -/
def rank (i : Nat) : Nat := (lengths.take i).count (lengths.getD i 0)

def code (i : Nat) : Nat := firstCode lengths (lengths.getD i 0) + rank lengths i

def codeword (i : Nat) : List Bool := bitsOf (code lengths i) (lengths.getD i 0)

/-- The Kraft sum in units of the longest length `n`. -/
def kraftSum (n : Nat) : Nat := (lengths.map fun l => if l = 0 then 0 else 2 ^ (n - l)).sum

variable {lengths} {n i j : Nat}

theorem rank_cons_succ (a i : Nat) :
    rank (a :: lengths) (i + 1) = rank lengths i + if a = lengths.getD i 0 then 1 else 0 := by
  rw [rank, List.getD_cons_succ, List.take_succ_cons, List.count_cons, rank]
  simp only [beq_iff_eq]

theorem count_take_lt (hij : i < j) (hi : i < lengths.length) :
    (lengths.take i).count lengths[i] < (lengths.take j).count lengths[i] := by
  have hsub : (lengths.take (i + 1)).count lengths[i] ≤ (lengths.take j).count lengths[i] :=
    (List.take_prefix_take_left (by omega)).sublist.count_le _
  rw [List.take_add_one, List.getElem?_eq_getElem hi, List.count_append] at hsub
  simp at hsub
  omega

theorem rank_lt (hi : i < lengths.length) (h0 : lengths.getD i 0 ≠ 0) :
    rank lengths i < count lengths (lengths.getD i 0) := by
  have h := count_take_lt hi hi
  rw [List.take_length] at h
  rwa [rank, count, if_neg h0, List.getD_eq_getElem _ _ hi]

theorem rank_lt_rank (hij : i < j) (hj : j < lengths.length) (hl : lengths.getD i 0 = lengths.getD j 0) :
    rank lengths i < rank lengths j := by
  have hi : i < lengths.length := hij.trans hj
  rw [rank, rank, ← hl, List.getD_eq_getElem _ _ hi]
  exact count_take_lt hij hi

section Padding

/-- Symbols without a code at the end change nothing. -/
theorem count_append_zeros (k l : Nat) : count (lengths ++ List.replicate k 0) l = count lengths l := by
  unfold count
  split
  · rfl
  · rename_i h0
    rw [List.count_append, List.count_replicate, if_neg (by simpa using Ne.symm h0), Nat.add_zero]

theorem firstCode_append_zeros (k l : Nat) : firstCode (lengths ++ List.replicate k 0) l = firstCode lengths l := by
  induction l with
  | zero => rfl
  | succ l ih => rw [firstCode, firstCode, ih, count_append_zeros]

theorem codeword_append_zeros (k : Nat) (hi : i < lengths.length) :
    codeword (lengths ++ List.replicate k 0) i = codeword lengths i := by
  rw [codeword, codeword, code, code, rank, rank, List.getD_append _ _ _ _ hi, firstCode_append_zeros,
    List.take_append_of_le_length hi.le]

theorem kraftSum_append_zeros (k : Nat) : kraftSum (lengths ++ List.replicate k 0) n = kraftSum lengths n := by
  rw [kraftSum, kraftSum, List.map_append, List.sum_append, List.map_replicate, if_pos rfl, List.sum_replicate,
    smul_zero, Nat.add_zero]

end Padding

section Kraft

theorem count_cons (a : Nat) (l : Nat) :
    count (a :: lengths) l = count lengths l + if l = a then (if a = 0 then 0 else 1) else 0 := by
  unfold count
  rw [List.count_cons]
  by_cases hl : l = a
  · subst hl
    by_cases h0 : l = 0 <;> simp [h0]
  · simp [hl, Ne.symm hl]

/-- The Kraft sum, length by length. -/
theorem kraftSum_eq (hmax : ∀ l ∈ lengths, l ≤ n) :
    kraftSum lengths n = ∑ l ∈ Finset.Ico 0 (n + 1), count lengths l * 2 ^ (n - l) := by
  induction lengths with
  | nil => simp [kraftSum, count]
  | cons a lengths ih =>
      have ha : a ∈ Finset.Ico 0 (n + 1) := by
        have := hmax a (by simp)
        simp only [Finset.mem_Ico]
        omega
      have hsum : kraftSum (a :: lengths) n = (if a = 0 then 0 else 2 ^ (n - a)) + kraftSum lengths n := by
        simp [kraftSum]
      rw [hsum, ih fun l hl => hmax l (by simp [hl])]
      simp only [count_cons, Nat.add_mul, Finset.sum_add_distrib, ite_mul, zero_mul, Finset.sum_ite_eq', ha, if_true,
        one_mul]
      omega

/-- What the codes shorter than `l` use up, and what the others do, is the whole Kraft sum. -/
theorem firstCode_add_sum (lengths : List Nat) {l : Nat} (hl : l ≤ n) :
    firstCode lengths l * 2 ^ (n - l) + ∑ m ∈ Finset.Ico l (n + 1), count lengths m * 2 ^ (n - m) =
      ∑ m ∈ Finset.Ico 0 (n + 1), count lengths m * 2 ^ (n - m) := by
  induction l with
  | zero => simp [firstCode]
  | succ l ih =>
      rw [← ih (by omega), Finset.sum_eq_sum_Ico_succ_bot (show l < n + 1 by omega), firstCode]
      have hpow : 2 ^ (n - l) = 2 * 2 ^ (n - (l + 1)) := by
        rw [← Nat.pow_succ']
        congr 1
        omega
      rw [hpow]
      ring

/-- The same sum in smaller units. -/
theorem kraftSum_add (k : Nat) (hmax : ∀ l ∈ lengths, l ≤ n) : kraftSum lengths (n + k) = kraftSum lengths n * 2 ^ k := by
  induction lengths with
  | nil => simp [kraftSum]
  | cons a lengths ih =>
      have hsum : ∀ m, kraftSum (a :: lengths) m = (if a = 0 then 0 else 2 ^ (m - a)) + kraftSum lengths m := by
        intro m
        rw [kraftSum, List.map_cons, List.sum_cons, kraftSum]
      rw [hsum, hsum, ih fun l hl => hmax l (List.mem_cons_of_mem _ hl), Nat.add_mul]
      congr 1
      split
      · rw [Nat.zero_mul]
      · rw [← Nat.pow_add, Nat.sub_add_comm (hmax a List.mem_cons_self)]

theorem firstCode_add_count_le (hmax : ∀ l ∈ lengths, l ≤ n) (hkraft : kraftSum lengths n ≤ 2 ^ n) {l : Nat}
    (hl : l ≤ n) : firstCode lengths l + count lengths l ≤ 2 ^ l := by
  have hsum := firstCode_add_sum lengths hl
  rw [← kraftSum_eq hmax, Finset.sum_eq_sum_Ico_succ_bot (show l < n + 1 by omega)] at hsum
  have hpow : 2 ^ n = 2 ^ l * 2 ^ (n - l) := by
    rw [← Nat.pow_add]
    congr 1
    omega
  have hle : (firstCode lengths l + count lengths l) * 2 ^ (n - l) ≤ 2 ^ l * 2 ^ (n - l) := by
    rw [Nat.add_mul]
    omega
  exact Nat.le_of_mul_le_mul_right hle (Nat.pow_pos (by decide))

theorem code_lt (hmax : ∀ l ∈ lengths, l ≤ n) (hkraft : kraftSum lengths n ≤ 2 ^ n) (hi : i < lengths.length)
    (h0 : lengths.getD i 0 ≠ 0) : code lengths i < 2 ^ lengths.getD i 0 := by
  have hle : lengths.getD i 0 ≤ n := by
    rw [List.getD_eq_getElem _ _ hi]
    exact hmax _ (List.getElem_mem hi)
  have := firstCode_add_count_le hmax hkraft hle
  have := rank_lt hi h0
  rw [code]
  omega

end Kraft

section Prefixes

/-- The number of inner nodes at depth `d`, with `k` levels below it: two children share a parent. -/
def innerFrom (lengths : List Nat) : Nat → Nat → Nat
  | 0, _ => 0
  | k + 1, d => (count lengths (d + 1) + innerFrom lengths k (d + 1) + 1) / 2

/-- The first `d` bits of a longer code, as a number, come after all codes of `d` bits. -/
theorem code_div_mem (hi : i < lengths.length) {d k m : Nat} (hd : d + k + 1 = lengths.getD i 0) (hk : k < m) :
    firstCode lengths d + count lengths d ≤ code lengths i / 2 ^ (k + 1) ∧
      code lengths i / 2 ^ (k + 1) < firstCode lengths d + count lengths d + innerFrom lengths m d := by
  induction k generalizing d m with
  | zero =>
      obtain ⟨m, rfl⟩ : ∃ m', m = m' + 1 := ⟨m - 1, by omega⟩
      have hrank := rank_lt hi (by omega)
      rw [← hd] at hrank
      rw [code, ← hd, innerFrom, firstCode]
      simp only [Nat.add_zero, Nat.zero_add, Nat.pow_one] at hrank ⊢
      omega
  | succ k ih =>
      obtain ⟨m, rfl⟩ : ∃ m', m = m' + 1 := ⟨m - 1, by omega⟩
      obtain ⟨hlow, hhigh⟩ := ih (d := d + 1) (m := m) (by omega) (by omega)
      rw [firstCode] at hlow hhigh
      rw [Nat.pow_succ, ← Nat.div_div_eq_div_mul, innerFrom]
      omega

theorem take_codeword {d k : Nat} (hd : d + k = lengths.getD i 0) :
    (codeword lengths i).take d = bitsOf (code lengths i / 2 ^ k) d := by
  rw [codeword, ← hd, bitsOf_add, List.take_append_of_le_length (by simp), List.take_of_length_le (by simp)]

/-- No codeword begins another. -/
theorem codeword_prefix (hmax : ∀ l ∈ lengths, l ≤ n) (hkraft : kraftSum lengths n ≤ 2 ^ n)
    (hi : i < lengths.length) (hj : j < lengths.length) (hi0 : lengths.getD i 0 ≠ 0) (hj0 : lengths.getD j 0 ≠ 0)
    (hpre : codeword lengths i <+: codeword lengths j) : i = j := by
  have hle : lengths.getD i 0 ≤ lengths.getD j 0 := by simpa [codeword] using hpre.length_le
  have hlt := code_lt hmax hkraft hi hi0
  rw [List.prefix_iff_eq_take] at hpre
  obtain ⟨k, hk⟩ := Nat.exists_eq_add_of_le hle
  have hdiv : code lengths j / 2 ^ k < 2 ^ lengths.getD i 0 := by
    apply Nat.div_lt_of_lt_mul
    rw [← Nat.pow_add, Nat.add_comm, ← hk]
    exact code_lt hmax hkraft hj hj0
  have hlen : (codeword lengths i).length = lengths.getD i 0 := length_bitsOf _ _
  rw [hlen, take_codeword hk.symm] at hpre
  have hcode := bitsOf_injective hlt hdiv hpre
  rcases Nat.eq_zero_or_pos k with rfl | hpos
  · rw [Nat.pow_zero, Nat.div_one, code, code, show lengths.getD i 0 = lengths.getD j 0 by omega] at hcode
    rcases lt_trichotomy i j with h | h | h
    · have := rank_lt_rank h hj (by omega)
      omega
    · exact h
    · have := rank_lt_rank h hi (by omega)
      omega
  · obtain ⟨k, rfl⟩ : ∃ k', k = k' + 1 := ⟨k - 1, by omega⟩
    have hmem := (code_div_mem (m := k + 1) hj (by rw [hk, Nat.add_assoc]) (by omega)).1
    have := rank_lt hi hi0
    rw [code] at hcode
    omega

/-- Of the nodes at one depth, at most the last has a single child. -/
theorem sum_innerFrom_le (lengths : List Nat) (k d : Nat) :
    ∑ e ∈ Finset.Ico d (d + k), innerFrom lengths (d + k - e) e + innerFrom lengths k d ≤
      ∑ e ∈ Finset.Ico (d + 1) (d + k + 1), count lengths e + k := by
  induction k generalizing d with
  | zero => simp [innerFrom]
  | succ k ih =>
      have h := ih (d + 1)
      rw [Finset.sum_eq_sum_Ico_succ_bot (show d < d + (k + 1) by omega),
        Finset.sum_eq_sum_Ico_succ_bot (show d + 1 < d + (k + 1) + 1 by omega), Nat.add_sub_cancel_left]
      rw [show d + 1 + k = d + (k + 1) by omega] at h
      have hstep : 2 * innerFrom lengths (k + 1) d ≤ count lengths (d + 1) + innerFrom lengths k (d + 1) + 1 := by
        rw [innerFrom]
        omega
      omega

theorem sum_count_le (lengths : List Nat) (n : Nat) :
    ∑ l ∈ Finset.Ico 1 n, count lengths l ≤ lengths.length := by
  induction lengths with
  | nil => simp [count]
  | cons a lengths ih =>
      simp only [count_cons, Finset.sum_add_distrib, List.length_cons, Finset.sum_ite_eq']
      split <;> (try split) <;> omega

/-- The words that stand for the inner nodes, other than the root, of the tree of all codes. -/
def innerWords (lengths : List Nat) (n : Nat) : Finset (List Bool) :=
  (Finset.Ico 1 n).biUnion fun d =>
    (Finset.Ico (firstCode lengths d + count lengths d)
      (firstCode lengths d + count lengths d + innerFrom lengths (n - d) d)).image (bitsOf · d)

theorem card_innerWords_le (hn : 0 < n) : (innerWords lengths n).card + 1 ≤ lengths.length + n := by
  have hcard : (innerWords lengths n).card ≤ ∑ d ∈ Finset.Ico 1 n, innerFrom lengths (n - d) d := by
    refine Finset.card_biUnion_le.trans (Finset.sum_le_sum fun d _ => ?_)
    refine Finset.card_image_le.trans ?_
    rw [Nat.card_Ico, Nat.add_sub_cancel_left]
  have hsum := sum_innerFrom_le lengths (n - 1) 1
  rw [Nat.add_sub_cancel' hn] at hsum
  have hcount := sum_count_le lengths (n + 1)
  rw [Finset.sum_eq_sum_Ico_succ_bot (show 1 < n + 1 by omega)] at hcount
  omega

theorem mem_innerWords (hmax : ∀ l ∈ lengths, l ≤ n) (hi : i < lengths.length) {p : List Bool} (hp : p ≠ [])
    (hpre : p <+: codeword lengths i) (hlen : p.length < lengths.getD i 0) : p ∈ innerWords lengths n := by
  have hpos := List.length_pos_iff.mpr hp
  have hle : lengths.getD i 0 ≤ n := by
    rw [List.getD_eq_getElem _ _ hi]
    exact hmax _ (List.getElem_mem hi)
  obtain ⟨k, hk⟩ : ∃ k, p.length + k + 1 = lengths.getD i 0 := ⟨lengths.getD i 0 - p.length - 1, by omega⟩
  rw [List.prefix_iff_eq_take, take_codeword (k := k + 1) (by omega)] at hpre
  obtain ⟨hlow, hhigh⟩ := code_div_mem (m := n - p.length) hi hk (by omega)
  rw [innerWords, Finset.mem_biUnion]
  refine ⟨p.length, by simp; omega, ?_⟩
  rw [Finset.mem_image]
  exact ⟨_, Finset.mem_Ico.mpr ⟨hlow, hhigh⟩, hpre.symm⟩

end Prefixes

end XviOs.Library.CanonicalCode
