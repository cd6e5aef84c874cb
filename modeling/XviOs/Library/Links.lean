import Mathlib.Data.Finset.Lattice.Fold
import Mathlib.Data.List.Nodup
import Mathlib.Data.Sum.Basic
import Mathlib.Logic.Function.Basic
import Mathlib.Tactic

namespace XviOs.Library.Links

variable {ι ν : Type*}

/-- From the place of a link on: the nodes that the links lead through, and where the last of them leads to. A link is
kept at the start of a chain or in a node. -/
def Path (link : ι ⊕ ν → ν) : ι ⊕ ν → List ν → ν → Prop
  | s, [], b => link s = b
  | s, x :: l, b => link s = x ∧ Path link (.inr x) l b

/-- The place of the last link on a path. -/
def endOf (s : ι ⊕ ν) : List ν → ι ⊕ ν
  | [] => s
  | x :: l => endOf (.inr x) l

variable {link link' : ι ⊕ ν → ν} {s t : ι ⊕ ν} {a b x y null : ν} {l l' : List ν}

@[simp]
theorem path_nil : Path link s [] b ↔ link s = b := Iff.rfl

@[simp]
theorem path_cons : Path link s (x :: l) b ↔ link s = x ∧ Path link (.inr x) l b := Iff.rfl

@[simp]
theorem endOf_nil : endOf s ([] : List ν) = s := rfl

@[simp]
theorem endOf_cons : endOf s (x :: l) = endOf (.inr x) l := rfl

theorem endOf_append : endOf s (l ++ l') = endOf (endOf s l) l' := by
  induction l generalizing s with
  | nil => rfl
  | cons x l ih => exact ih

theorem endOf_concat : endOf s (l ++ [x]) = .inr x := endOf_append

theorem endOf_eq_of_ne_nil (hl : l ≠ []) : endOf s l = endOf t l := by
  cases l with
  | nil => exact absurd rfl hl
  | cons x l => rfl

theorem endOf_mem (hl : l ≠ []) : ∃ x ∈ l, endOf s l = .inr x :=
  ⟨l.getLast hl, List.getLast_mem hl, by rw [← endOf_concat (l := l.dropLast), List.dropLast_append_getLast]⟩

theorem endOf_cases (s : ι ⊕ ν) (l : List ν) : endOf s l = s ∨ ∃ x ∈ l, endOf s l = .inr x := by
  cases l with
  | nil => exact Or.inl rfl
  | cons x l => exact Or.inr (endOf_mem (List.cons_ne_nil x l))

namespace Path

theorem link_eq (h : Path link s l b) : link s = l.headD b := by
  cases l with
  | nil => exact h
  | cons x l => exact h.1

theorem link_endOf (h : Path link s l b) : link (endOf s l) = b := by
  induction l generalizing s with
  | nil => exact h
  | cons x l ih => exact ih h.2

/-- Only the links on it make a path, and where its first link is kept does not matter. -/
theorem congr (h : Path link s l b) (hst : link' t = link s) (heq : ∀ x ∈ l, link' (.inr x) = link (.inr x)) :
    Path link' t l b := by
  induction l generalizing s t with
  | nil => exact hst.trans h
  | cons x l ih =>
    rw [List.forall_mem_cons] at heq
    exact ⟨hst.trans h.1, ih h.2 heq.1 heq.2⟩

end Path

theorem path_append : Path link s (l ++ l') b ↔ Path link s l (l'.headD b) ∧ Path link (endOf s l) l' b := by
  induction l generalizing s with
  | nil => exact ⟨fun h => ⟨h.link_eq, h⟩, And.right⟩
  | cons x l ih =>
    rw [List.cons_append, path_cons, path_cons, endOf_cons, ih, and_assoc]

/-- The last link of a path is led to another node. -/
theorem Path.divert (h : Path link s l b) (hs : ∀ x ∈ l, s ≠ .inr x) (hnodup : l.Nodup)
    (hsame : ∀ r, r ≠ endOf s l → (r = s ∨ ∃ x ∈ l, r = .inr x) → link' r = link r)
    (hend : link' (endOf s l) = y) : Path link' s l y := by
  induction l generalizing s with
  | nil => exact hend
  | cons x l ih =>
    rw [List.nodup_cons] at hnodup
    have hx : ∀ z ∈ l, (.inr x : ι ⊕ ν) ≠ .inr z := by
      rintro z hz ⟨⟩
      exact hnodup.1 hz
    have hne : s ≠ endOf s (x :: l) := by
      obtain ⟨z, hz, heq⟩ := endOf_mem (s := s) (List.cons_ne_nil x l)
      exact heq ▸ hs z hz
    refine ⟨(hsame s hne (Or.inl rfl)).trans h.1, ih h.2 hx hnodup.2 ?_ hend⟩
    rintro r hr (rfl | ⟨z, hz, rfl⟩)
    · exact hsame _ hr (Or.inr ⟨x, List.mem_cons_self, rfl⟩)
    · exact hsame _ hr (Or.inr ⟨z, List.mem_cons_of_mem x hz, rfl⟩)

/-- No node is in two of the chains, or twice in one of them, and the end mark is in none. -/
structure Apart (null : ν) (chain : ι → List ν) : Prop where
  null_notMem : ∀ i, null ∉ chain i
  nodup : ∀ i, (chain i).Nodup
  disjoint : ∀ i j x, x ∈ chain i → x ∈ chain j → i = j

/-- Each chain is what the links lead through from its start to the end mark. -/
def Threads (null : ν) (link : ι ⊕ ν → ν) (chain : ι → List ν) : Prop := ∀ i, Path link (.inl i) (chain i) null

variable {chain : ι → List ν} {k : ι} {A M M' B : List ν}

theorem Apart.ne_null (h : Apart null chain) (hx : x ∈ chain k) : x ≠ null := by
  rintro rfl
  exact h.null_notMem k hx

theorem Threads.link_endOf (h : Threads null link chain) (hk : chain k = A ++ B) :
    link (endOf (.inl k) A) = B.headD null := by
  have hpath := h k
  rw [hk, path_append] at hpath
  exact hpath.1.link_endOf

theorem Threads.segment (h : Threads null link chain) (hk : chain k = A ++ M ++ B) :
    Path link (endOf (.inl k) A) M (B.headD null) := by
  have hpath := h k
  rw [hk, path_append, path_append] at hpath
  exact hpath.1.2

/-- What stands behind a segment is not in it. -/
theorem Apart.headD_notMem (h : Apart null chain) (hk : chain k = A ++ M ++ B) : B.headD null ∉ M := by
  intro hmem
  have hnodup := h.nodup k
  rw [hk, List.nodup_append] at hnodup
  cases B with
  | nil =>
    apply h.null_notMem k
    rw [hk, List.append_nil]
    exact List.mem_append_right A hmem
  | cons b B => exact hnodup.2.2 b (List.mem_append_right A hmem) b List.mem_cons_self rfl

/-- The new nodes of a chain come from its own segment, or from none of the chains. -/
structure Replaces (null : ν) (chain : ι → List ν) (k : ι) (A M M' B : List ν) : Prop where
  eq : chain k = A ++ M ++ B
  null_notMem : null ∉ M'
  nodup : M'.Nodup
  fresh : ∀ x ∈ M', ∀ j, x ∈ chain j → j = k ∧ x ∈ M

namespace Replaces

theorem mem_iff (h : Replaces null chain k A M M' B) : x ∈ A ∨ x ∈ M ∨ x ∈ B ↔ x ∈ chain k := by
  rw [h.eq, List.mem_append, List.mem_append, or_assoc]

theorem nodup_parts (h : Replaces null chain k A M M' B) (hapart : Apart null chain) :
    A.Nodup ∧ B.Nodup ∧ (∀ x ∈ A, x ∉ M) ∧ (∀ x ∈ A, x ∉ B) ∧ ∀ x ∈ M, x ∉ B := by
  have hk := hapart.nodup k
  rw [h.eq, List.nodup_append, List.nodup_append] at hk
  obtain ⟨⟨hA, -, hAM⟩, hB, hAMB⟩ := hk
  refine ⟨hA, hB, fun x hx hx' => hAM x hx x hx' rfl, ?_, ?_⟩
  · exact fun x hx hx' => hAMB x (List.mem_append_left M hx) x hx' rfl
  · exact fun x hx hx' => hAMB x (List.mem_append_right A hx) x hx' rfl

theorem mem_cases [DecidableEq ι] (h : Replaces null chain k A M M' B) {j : ι}
    (hx : x ∈ Function.update chain k (A ++ M' ++ B) j) : x ∈ M' ∧ j = k ∨ x ∈ chain j := by
  obtain rfl | hjk := eq_or_ne j k
  · rw [Function.update_self, List.mem_append, List.mem_append] at hx
    obtain (hx | hx) | hx := hx
    · exact Or.inr (h.mem_iff.mp (Or.inl hx))
    · exact Or.inl ⟨hx, rfl⟩
    · exact Or.inr (h.mem_iff.mp (Or.inr (Or.inr hx)))
  · rw [Function.update_of_ne hjk] at hx
    exact Or.inr hx

theorem exists_mem_iff [DecidableEq ι] (h : Replaces null chain k A M M' B) (hapart : Apart null chain) :
    (∃ j, x ∈ Function.update chain k (A ++ M' ++ B) j) ↔ x ∈ M' ∨ (∃ j, x ∈ chain j) ∧ x ∉ M := by
  obtain ⟨-, -, hAM, -, hMB⟩ := h.nodup_parts hapart
  constructor
  · rintro ⟨j, hj⟩
    by_cases hx : x ∈ M'
    · exact Or.inl hx
    · refine Or.inr ⟨⟨j, (h.mem_cases hj).resolve_left fun hM' => hx hM'.1⟩, fun hM => ?_⟩
      have hk := h.mem_iff.mp (Or.inr (Or.inl hM))
      obtain rfl := hapart.disjoint j k x ((h.mem_cases hj).resolve_left fun hM' => hx hM'.1) hk
      rw [Function.update_self, List.mem_append, List.mem_append] at hj
      obtain (hA | hM') | hB := hj
      · exact hAM x hA hM
      · exact hx hM'
      · exact hMB x hM hB
  · rintro (hx | ⟨⟨j, hj⟩, hM⟩)
    · refine ⟨k, ?_⟩
      rw [Function.update_self]
      exact List.mem_append_left B (List.mem_append_right A hx)
    · refine ⟨j, ?_⟩
      obtain rfl | hjk := eq_or_ne j k
      · rw [Function.update_self, List.mem_append, List.mem_append]
        obtain hA | hM' | hB := h.mem_iff.mpr hj
        · exact Or.inl (Or.inl hA)
        · exact absurd hM' hM
        · exact Or.inr hB
      · rwa [Function.update_of_ne hjk]

theorem apart [DecidableEq ι] (h : Replaces null chain k A M M' B) (hapart : Apart null chain) :
    Apart null (Function.update chain k (A ++ M' ++ B)) := by
  obtain ⟨hA, hB, hAM, hAB, hMB⟩ := h.nodup_parts hapart
  refine ⟨fun j hj => ?_, fun j => ?_, fun i j x hi hj => ?_⟩
  · obtain ⟨hnull, -⟩ | hj := h.mem_cases hj
    · exact h.null_notMem hnull
    · exact hapart.null_notMem j hj
  · obtain rfl | hjk := eq_or_ne j k
    · rw [Function.update_self, List.nodup_append, List.nodup_append]
      refine ⟨⟨hA, h.nodup, ?_⟩, hB, ?_⟩
      · rintro x hx y hy rfl
        exact hAM x hx (h.fresh x hy j (h.mem_iff.mp (Or.inl hx))).2
      · rintro x hx y hy rfl
        obtain hx | hx := List.mem_append.mp hx
        · exact hAB x hx hy
        · exact hMB x (h.fresh x hx j (h.mem_iff.mp (Or.inr (Or.inr hy)))).2 hy
    · rw [Function.update_of_ne hjk]
      exact hapart.nodup j
  · obtain ⟨hiM, rfl⟩ | hi' := h.mem_cases hi
    · obtain ⟨-, rfl⟩ | hj' := h.mem_cases hj
      · rfl
      · exact (h.fresh x hiM j hj').1.symm
    · obtain ⟨hjM, rfl⟩ | hj' := h.mem_cases hj
      · exact (h.fresh x hjM i hi').1
      · exact hapart.disjoint i j x hi' hj'

/-- When the new links lead from the node before the segment through the new nodes to the node behind it, and the other
links are kept, each chain is threaded again. -/
theorem threads [DecidableEq ι] (h : Replaces null chain k A M M' B) (hapart : Apart null chain)
    (hthreads : Threads null link chain)
    (hpath : Path link' (endOf (.inl k) A) M' (link (endOf (.inl k) (A ++ M))))
    (hsame : ∀ r, r ≠ endOf (.inl k) A → (∀ x ∈ M, r ≠ .inr x) → (∀ x ∈ M', r ≠ .inr x) → link' r = link r) :
    Threads null link' (Function.update chain k (A ++ M' ++ B)) := by
  obtain ⟨hA, hB, hAM, hAB, hMB⟩ := h.nodup_parts hapart
  -- a link that is not the one before the segment is kept outside of it
  have hkept : ∀ j x, x ∈ chain j → (j = k → x ∉ M ∧ x ∉ A) → link' (.inr x) = link (.inr x) := by
    intro j x hx hxk
    apply hsame
    · intro hend
      obtain hinl | ⟨y, hy, hinr⟩ := endOf_cases (.inl k : ι ⊕ ν) A
      · cases hend.trans hinl
      · cases hend.trans hinr
        exact (hxk (hapart.disjoint j k x hx (h.mem_iff.mp (Or.inl hy)))).2 hy
    · rintro y hy ⟨⟩
      exact (hxk (hapart.disjoint j k x hx (h.mem_iff.mp (Or.inr (Or.inl hy))))).1 hy
    · rintro y hy ⟨⟩
      obtain ⟨hjk, hyM⟩ := h.fresh x hy j hx
      exact (hxk hjk).1 hyM
  have hk := hthreads k
  rw [h.eq, path_append, path_append] at hk
  obtain ⟨⟨hbefore, hsegment⟩, hbehind⟩ := hk
  intro j
  obtain rfl | hjk := eq_or_ne j k
  · rw [Function.update_self, path_append, path_append, endOf_append]
    rw [endOf_append, hsegment.link_endOf] at hpath
    refine ⟨⟨hbefore.divert (by simp) hA ?_ hpath.link_eq, hpath⟩, hbehind.congr ?_ fun x hx => ?_⟩
    · rintro r hr (rfl | ⟨x, hx, rfl⟩)
      · exact hsame _ hr (by simp) (by simp)
      · apply hsame _ hr
        · rintro y hy ⟨⟩
          exact hAM x hx hy
        · rintro y hy ⟨⟩
          exact hAM x hx (h.fresh x hy j (h.mem_iff.mp (Or.inl hx))).2
    · rw [hpath.link_endOf, hbehind.link_eq]
    · exact hkept j x (h.mem_iff.mp (Or.inr (Or.inr hx))) fun _ => ⟨fun hM => hMB x hM hx, fun hA => hAB x hA hx⟩
  · rw [Function.update_of_ne hjk]
    refine (hthreads j).congr ?_ fun x hx => hkept j x hx fun hj => absurd hj hjk
    apply hsame _ _ (by simp) (by simp)
    obtain hinl | ⟨x, -, hinr⟩ := endOf_cases (.inl k : ι ⊕ ν) A
    · rw [hinl]
      rintro ⟨⟩
      exact hjk rfl
    · rw [hinr]
      exact Sum.inl_ne_inr

end Replaces

theorem Apart.reverse (h : Apart null chain) : Apart null fun i => (chain i).reverse :=
  ⟨by simpa using h.null_notMem, by simpa using h.nodup, by simpa using h.disjoint⟩

theorem update_reverse [DecidableEq ι] (chain : ι → List ν) (k : ι) (l : List ν) :
    (fun i => (Function.update chain k l i).reverse) =
      Function.update (fun i => (chain i).reverse) k l.reverse := by
  funext i
  exact Function.apply_update (fun _ => List.reverse) chain k l i

/-- A node that is in no chain, or one of a chain. -/
def slotOf [DecidableEq ν] (null : ν) (k : ι) (x : ν) : ι ⊕ ν := if x = null then .inl k else .inr x

theorem endOf_eq_slotOf [DecidableEq ν] (h : null ∉ A) : endOf (.inl k) A = slotOf null k (A.reverse.headD null) := by
  obtain rfl | ⟨A, x, rfl⟩ := List.eq_nil_or_concat A
  · exact (if_pos rfl).symm
  · have hx : x ≠ null := fun hx => h (by simp [hx])
    rw [List.concat_eq_append, endOf_concat, List.reverse_concat, List.headD_cons, slotOf, if_neg hx]

section
variable [DecidableEq ι] {e : ν}

omit [DecidableEq ι] in
theorem replaces_insert (hk : chain k = A ++ B) (hnull : e ≠ null)
    (hfresh : ∀ i, e ∉ chain i) : Replaces null chain k A [] [e] B := by
  refine ⟨by rw [hk, List.append_nil], by simpa using hnull.symm, List.nodup_singleton e, ?_⟩
  intro x hx i hi
  rw [List.mem_singleton] at hx
  exact absurd (hx ▸ hi) (hfresh i)

theorem Apart.threads_insert [DecidableEq ν] (h : Apart null chain) (hthreads : Threads null link chain)
    (hk : chain k = A ++ B) (hnull : e ≠ null) (hfresh : ∀ i, e ∉ chain i)
    (hlink : link' = Function.update (Function.update link (.inr e) (B.headD null)) (endOf (.inl k) A) e) :
    Threads null link' (Function.update chain k (A ++ [e] ++ B)) := by
  have hne : (.inr e : ι ⊕ ν) ≠ endOf (.inl k) A := by
    obtain hend | ⟨y, hy, hend⟩ := endOf_cases (.inl k : ι ⊕ ν) A
    · rw [hend]
      exact Sum.inr_ne_inl
    · rw [hend]
      rintro ⟨⟩
      exact hfresh k (hk ▸ List.mem_append_left B hy)
  apply (replaces_insert hk hnull hfresh).threads h hthreads
  · rw [hlink, List.append_nil, hthreads.link_endOf hk]
    refine ⟨Function.update_self _ _ _, ?_⟩
    rw [path_nil, Function.update_of_ne hne, Function.update_self]
  · intro r hr _ hre
    rw [hlink, Function.update_of_ne hr, Function.update_of_ne (hre e List.mem_cons_self)]

end

section
variable [DecidableEq ι] {j : ι} {C D : List ν}

omit [DecidableEq ι] in
/-- A segment leaves its chain. -/
theorem Apart.replaces_nil (null : ν) (hj : chain j = C ++ M ++ D) : Replaces null chain j C M [] D :=
  ⟨hj, by simp, List.nodup_nil, by simp⟩

/-- A node leaves its chain. What its own link is afterwards does not matter. -/
theorem Apart.threads_erase [DecidableEq ν] {e : ν} (h : Apart null chain) (hthreads : Threads null link chain)
    (hk : chain k = A ++ [e] ++ B)
    (hlink : ∀ r, r ≠ .inr e → link' r = Function.update link (endOf (.inl k) A) (B.headD null) r) :
    Threads null link' (Function.update chain k (A ++ [] ++ B)) := by
  apply (replaces_nil null hk).threads h hthreads
  · rw [hthreads.link_endOf hk, path_nil, hlink, Function.update_self]
    obtain hend | ⟨y, hy, hend⟩ := endOf_cases (.inl k : ι ⊕ ν) A
    · rw [hend]
      exact Sum.inl_ne_inr
    · rw [hend]
      rintro ⟨⟩
      exact ((replaces_nil null hk).nodup_parts h).2.2.1 e hy List.mem_cons_self
  · exact fun r hr he _ => (hlink r (he e List.mem_cons_self)).trans (Function.update_of_ne hr _ _)

/-- What has left its chain can come back at another place. -/
theorem Apart.replaces_moved (h : Apart null chain) (hj : chain j = C ++ M ++ D)
    (hk : Function.update chain j (C ++ [] ++ D) k = A ++ B) :
    Replaces null (Function.update chain j (C ++ [] ++ D)) k A [] M B := by
  have hmem : ∀ x ∈ M, x ∈ chain j := fun x hx => by simp [hj, hx]
  have hnodup := h.nodup j
  rw [hj, List.nodup_append, List.nodup_append] at hnodup
  refine ⟨by rw [hk, List.append_nil], fun hM => h.null_notMem j (hmem null hM), hnodup.1.2.1, ?_⟩
  intro x hx i hi
  have hout := ((replaces_nil null hj).exists_mem_iff h).mp ⟨i, hi⟩
  exact absurd hx (hout.resolve_left List.not_mem_nil).2

omit [DecidableEq ι] in
theorem Apart.endOf_ne (h : Apart null chain) (hj : chain j = C ++ M ++ D) :
    ∀ x ∈ M, endOf (.inl j : ι ⊕ ν) C ≠ .inr x := by
  intro x hx heq
  obtain hinl | ⟨y, hy, hinr⟩ := endOf_cases (.inl j : ι ⊕ ν) C
  · cases hinl.symm.trans heq
  · cases hinr.symm.trans heq
    exact ((replaces_nil null hj).nodup_parts h).2.2.1 x hy hx

theorem Apart.endOf_ne_moved (h : Apart null chain) (hj : chain j = C ++ M ++ D)
    (hk : Function.update chain j (C ++ [] ++ D) k = A ++ B) : ∀ x ∈ M, endOf (.inl k : ι ⊕ ν) A ≠ .inr x := by
  intro x hx heq
  obtain hinl | ⟨y, hy, hinr⟩ := endOf_cases (.inl k : ι ⊕ ν) A
  · cases hinl.symm.trans heq
  · cases hinr.symm.trans heq
    have hout := ((replaces_nil null hj).exists_mem_iff h).mp ⟨k, hk ▸ List.mem_append_left B hy⟩
    exact (hout.resolve_left List.not_mem_nil).2 hx

theorem Apart.move (h : Apart null chain) (hj : chain j = C ++ M ++ D)
    (hk : Function.update chain j (C ++ [] ++ D) k = A ++ B) :
    Apart null (Function.update (Function.update chain j (C ++ [] ++ D)) k (A ++ M ++ B)) :=
  (h.replaces_moved hj hk).apart ((replaces_nil null hj).apart h)

theorem Apart.exists_mem_move_iff (h : Apart null chain) (hj : chain j = C ++ M ++ D)
    (hk : Function.update chain j (C ++ [] ++ D) k = A ++ B) :
    (∃ i, x ∈ Function.update (Function.update chain j (C ++ [] ++ D)) k (A ++ M ++ B) i) ↔ ∃ i, x ∈ chain i := by
  have hout := replaces_nil null hj
  rw [(h.replaces_moved hj hk).exists_mem_iff (hout.apart h), hout.exists_mem_iff h, or_iff_right List.not_mem_nil,
    and_iff_left List.not_mem_nil]
  constructor
  · rintro (hx | hx)
    · exact ⟨j, by simp [hj, hx]⟩
    · exact hx.1
  · exact fun hx => (em (x ∈ M)).imp_right fun hM => ⟨hx, hM⟩

/-- A segment moves, when the links lead from the node before its old place to the one behind it, and from the node
before its new place through the segment to the one behind that. -/
theorem Apart.threads_move [DecidableEq ν] (h : Apart null chain) (hthreads : Threads null link chain)
    (hj : chain j = C ++ M ++ D) (hk : Function.update chain j (C ++ [] ++ D) k = A ++ B)
    (hpath : Path link' (endOf (.inl k) A) M
      (Function.update link (endOf (.inl j) C) (D.headD null) (endOf (.inl k) A)))
    (hsame : ∀ r, r ≠ endOf (.inl k) A → (∀ x ∈ M, r ≠ .inr x) →
      link' r = Function.update link (endOf (.inl j) C) (D.headD null) r) :
    Threads null link' (Function.update (Function.update chain j (C ++ [] ++ D)) k (A ++ M ++ B)) := by
  have hout := replaces_nil null hj
  have hcut : Threads null (Function.update link (endOf (.inl j) C) (D.headD null))
      (Function.update chain j (C ++ [] ++ D)) := by
    apply hout.threads h hthreads
    · rw [path_nil, Function.update_self, hthreads.link_endOf hj]
    · exact fun r hr _ _ => Function.update_of_ne hr _ _
  apply (h.replaces_moved hj hk).threads (hout.apart h) hcut
  · rwa [List.append_nil]
  · exact fun r hr _ hM => hsame r hr hM

end

/-- The address behind all others is new. -/
theorem sup_succ_notMem (live : Finset ℕ) : live.sup id + 1 ∉ live :=
  fun h => absurd (Finset.le_sup (f := id) h) (Nat.not_succ_le_self _)

theorem sup_succ_ne_zero (live : Finset ℕ) : live.sup id + 1 ≠ 0 := Nat.succ_ne_zero _

end XviOs.Library.Links
