import XviOs.RBTree.Stepping

namespace XviOs.RBTree

variable {K α : Type} {pred : K → K → Bool} {mem : Memory K} {up ptr root a b n : Word} {s l r : Shape K} {k k' : K}
  {x y : Node K} {fuel : Nat} {red : Bool}

section Queries

variable (pred : K → K → Bool)

/-- The loop of `lowerBound`: down the left subtree to the first key that is not less. -/
def lowerBoundLoop : Nat → Word → Word → K → M K Word
  | 0, _, _, _ => diverge
  | fuel + 1, root, l, k => do
    if l = 0 then return root
    if pred (← key l) k then lowerBoundLoop fuel root (← right l) k
    else lowerBoundLoop fuel l (← left l) k

/-- Where the place of the key is to the left of the node, it is the one behind the node that is returned. -/
def lowerBound (fuel : Nat) (root : Word) (k : K) : M K Word := do
  if root = 0 then return 0
  match ← findInsertPoint pred fuel root k with
  | (n, .left) => next fuel n
  | (n, .right) => return n
  | (n, .here) => lowerBoundLoop pred fuel n (← left n) k

def equalRange (fuel : Nat) (root : Word) (k : K) : M K (Word × Word) := do
  if root = 0 then return (0, 0)
  match ← findInsertPoint pred fuel root k with
  | (n, .left) => do
    let m ← next fuel n
    return (m, m)
  | (n, .right) => return (n, n)
  | (n, .here) => return (← lowerBound pred fuel n k, ← upperBound pred fuel n k)

end Queries

/-- With enough steps the computation ends, with the value, and the nodes are as before. -/
def Returns (c : Nat → M K α) (mem : Memory K) (v : α) : Prop :=
  ∃ m, ∀ fuel, m ≤ fuel → (c fuel).run mem = some (v, mem)

theorem Returns.unique {c : Nat → M K α} {v w : α} (hv : Returns c mem v) (hw : Returns c mem w) : v = w := by
  obtain ⟨m, hm⟩ := hv
  obtain ⟨m', hm'⟩ := hw
  have heq := (hm (Nat.max m m') (Nat.le_max_left _ _)).symm.trans (hm' _ (Nat.le_max_right _ _))
  exact (Prod.mk.inj (Option.some.inj heq)).1

theorem Returns.of_succ {c : Nat → M K α} {v : α} (d : Nat)
    (h : ∀ fuel, d ≤ fuel → (c (fuel + 1)).run mem = some (v, mem)) : Returns c mem v := by
  refine ⟨d + 1, fun fuel hfuel => ?_⟩
  obtain ⟨fuel, rfl⟩ := Nat.exists_eq_succ_of_ne_zero (Nat.ne_zero_of_lt hfuel)
  exact h fuel (Nat.le_of_succ_le_succ hfuel)

/-- The first node that is not less than the key, or null. -/
def Shape.lowerOf (pred : K → K → Bool) (s : Shape K) (k : K) : Word :=
  ((s.inorder.find? fun x => !pred x.2 k).map Prod.fst).getD 0

/-- The first node that is greater than the key, or null. -/
def Shape.upperOf (pred : K → K → Bool) (s : Shape K) (k : K) : Word :=
  ((s.inorder.find? fun x => pred k x.2).map Prod.fst).getD 0

/-- The tree with a new one in the empty place at a side of a node. -/
inductive LinkedAt (new : Shape K) : Word → Where → Shape K → Shape K → Prop
  | left {n : Word} {k : K} {red : Bool} {r : Shape K} :
      LinkedAt new n .left (.node n k red .leaf r) (.node n k red new r)
  | right {n : Word} {k : K} {red : Bool} {l : Shape K} :
      LinkedAt new n .right (.node n k red l .leaf) (.node n k red l new)
  | inLeft {n a : Word} {w : Where} {k : K} {red : Bool} {l l' r : Shape K} :
      LinkedAt new n w l l' → LinkedAt new n w (.node a k red l r) (.node a k red l' r)
  | inRight {n a : Word} {w : Where} {k : K} {red : Bool} {l r r' : Shape K} :
      LinkedAt new n w r r' → LinkedAt new n w (.node a k red l r) (.node a k red l r')

/-- A new node with the key can be linked there, or the node has an equal key, or the tree is empty. -/
def InsertPoint (pred : K → K → Bool) (s : Shape K) (k : K) : Word × Where → Prop
  | (n, .here) => n = 0 ∧ s = .leaf ∨ ∃ k', (n, k') ∈ s.inorder ∧ pred k k' = false ∧ pred k' k = false
  | (n, w) => ∀ new red, ∃ s', LinkedAt (.node new k red .leaf .leaf) n w s s' ∧ s'.Ordered pred

/-- The root decides where the key's place is: on the key's side it has no child. -/
def EndsAtRoot (pred : K → K → Bool) (k : K) : Shape K → Prop
  | .leaf => True
  | .node _ k' _ l r => (pred k k' = true → l = .leaf) ∧ (pred k' k = true → r = .leaf)

/-- There is no root, or its key is equal. -/
def FoundAtRoot (pred : K → K → Bool) (k : K) : Shape K → Prop
  | .leaf => True
  | .node _ k' _ _ _ => pred k k' = false ∧ pred k' k = false

theorem FoundAtRoot.endsAtRoot (h : FoundAtRoot pred k s) : EndsAtRoot pred k s := by
  cases s with
  | leaf => exact trivial
  | node a k' red l r => exact ⟨fun hlt => by simp [h.1] at hlt, fun hgt => by simp [h.2] at hgt⟩

/-! ## Order -/

section Order

theorem ordered_node : (Shape.node a k' red l r).Ordered pred ↔ l.Ordered pred ∧ r.Ordered pred ∧
    (∀ x ∈ l.inorder, pred k' x.2 = false) ∧ (∀ y ∈ r.inorder, pred y.2 k' = false) ∧
    ∀ x ∈ l.inorder, ∀ y ∈ r.inorder, pred y.2 x.2 = false := by
  simp only [Shape.Ordered, Shape.inorder, List.pairwise_append, List.pairwise_cons, List.mem_cons]
  constructor
  · rintro ⟨hl, ⟨hkr, hr⟩, hlr⟩
    exact ⟨hl, hr, fun x hx => hlr x hx _ (Or.inl rfl), hkr, fun x hx y hy => hlr x hx y (Or.inr hy)⟩
  · rintro ⟨hl, hr, hlk, hkr, hlr⟩
    refine ⟨hl, ⟨hkr, hr⟩, fun x hx y hy => ?_⟩
    obtain rfl | hy := hy
    · exact hlk x hx
    · exact hlr x hx y hy

variable [hpred : IsStrictWeakOrder K fun a b => pred a b = true]

theorem pred_trans {a b c : K} (hab : pred a b = true) (hbc : pred b c = true) : pred a c = true :=
  hpred.trans a b c hab hbc

theorem pred_irrefl (a : K) : pred a a = false := Bool.eq_false_iff.2 (hpred.irrefl a)

theorem pred_asymm {a b : K} (hab : pred a b = true) : pred b a = false := by
  by_contra hba
  have haa := pred_trans hab (Bool.not_eq_false _ ▸ hba)
  simp [pred_irrefl] at haa

/-- Of two keys apart, a third is apart from one. -/
theorem pred_cotrans {a c : K} (b : K) (hac : pred a c = true) : pred a b = true ∨ pred b c = true := by
  by_contra hnot
  obtain ⟨hab, hbc⟩ := not_or.1 hnot
  have hba : ¬ pred b a = true := fun hba => hbc (pred_trans hba hac)
  have hcb : ¬ pred c b = true := fun hcb => hab (pred_trans hac hcb)
  exact (hpred.incomp_trans a b c ⟨hab, hba⟩ ⟨hbc, hcb⟩).1 hac

/-- Before a key that is less there are only such. -/
theorem pred_of_before {x k' k : K} (hle : pred k' x = false) (hlt : pred k' k = true) : pred x k = true := by
  rcases pred_cotrans x hlt with h | h
  · simp [hle] at h
  · exact h

/-- Behind a key that is greater there are only such. -/
theorem pred_of_behind {y k' k : K} (hle : pred y k' = false) (hlt : pred k k' = true) : pred k y = true := by
  rcases pred_cotrans y hlt with h | h
  · exact h
  · simp [hle] at h

/-- What the loop of `lowerBound` finds below `b`. -/
theorem run_lowerBoundLoop (h : Represents id mem up ptr s) (ho : s.Ordered pred) (hfuel : s.height < fuel) :
    (lowerBoundLoop pred fuel b ptr k).run mem =
      some (((s.inorder.find? fun x => !pred x.2 k).map Prod.fst).getD b, mem) := by
  induction s generalizing up ptr b fuel with
  | leaf =>
      obtain ⟨fuel, rfl⟩ := Nat.exists_eq_succ_of_ne_zero (Nat.ne_zero_of_lt hfuel)
      have hptr : ptr = 0#64 := h
      simp [lowerBoundLoop, hptr, Shape.inorder]
  | node a k' red l r ihl ihr =>
      obtain ⟨rfl, hptr, x, hx, rfl, -, -, hl, hr⟩ := h
      obtain ⟨hol, hor, hlk, -, -⟩ := ordered_node.1 ho
      obtain ⟨fuel, rfl⟩ := Nat.exists_eq_succ_of_ne_zero (Nat.ne_zero_of_lt hfuel)
      have hheight : Nat.max l.height r.height < fuel := Nat.lt_of_succ_lt_succ hfuel
      have hptr' : ptr ≠ 0#64 := hptr
      rw [Shape.inorder, List.find?_append]
      cases hlt : pred x.key k with
      | true =>
          have hnone : l.inorder.find? (fun x => !pred x.2 k) = none := by
            rw [List.find?_eq_none]
            intro y hy
            simp [pred_of_before (hlk y hy) hlt]
          have hrec := ihr (b := b) hr hor ((Nat.le_max_right _ _).trans_lt hheight)
          have hskip : ((ptr, x.key) :: r.inorder).find? (fun x => !pred x.2 k) =
              r.inorder.find? fun x => !pred x.2 k := List.find?_cons_of_neg (by simp [hlt])
          rw [hnone, Option.none_or, hskip, ← hrec]
          simp [lowerBoundLoop, hptr', hx, hlt]
      | false =>
          have hrec := ihl (b := ptr) hl hol ((Nat.le_max_left _ _).trans_lt hheight)
          have hhit : ((ptr, x.key) :: r.inorder).find? (fun x => !pred x.2 k) = some (ptr, x.key) :=
            List.find?_cons_of_pos (by simp [hlt])
          have hor' (o : Option (Word × K)) :
              ((o.or (some (ptr, x.key))).map Prod.fst).getD b = (o.map Prod.fst).getD ptr := by
            cases o <;> rfl
          rw [hhit, hor', ← hrec]
          simp [lowerBoundLoop, hptr', hx, hlt]

theorem getLastD_append_cons (p q : List Word) (a b : Word) : (p ++ a :: q).getLastD b = q.getLastD a := by
  induction p generalizing b with
  | nil => exact List.getLastD_cons
  | cons c p ih => rw [List.cons_append, List.getLastD_cons, ih]

/-- What the loop of `upperBound` finds below `b`: the last node before the greater ones. -/
theorem run_upperBoundLoop (h : Represents id mem up ptr s) (ho : s.Ordered pred) (hfuel : s.height < fuel) :
    ∃ p q, s.inorder = p ++ q ∧ (∀ x ∈ p, pred k x.2 = false) ∧ (∀ x ∈ q, pred k x.2 = true) ∧
      (upperBoundLoop pred fuel b ptr k).run mem = some ((p.map Prod.fst).getLastD b, mem) := by
  induction s generalizing up ptr b fuel with
  | leaf =>
      obtain ⟨fuel, rfl⟩ := Nat.exists_eq_succ_of_ne_zero (Nat.ne_zero_of_lt hfuel)
      have hptr : ptr = 0#64 := h
      exact ⟨[], [], rfl, by simp, by simp, by simp [upperBoundLoop, hptr]⟩
  | node a k' red l r ihl ihr =>
      obtain ⟨rfl, hptr, x, hx, rfl, -, -, hl, hr⟩ := h
      obtain ⟨hol, hor, hlk, hkr, -⟩ := ordered_node.1 ho
      obtain ⟨fuel, rfl⟩ := Nat.exists_eq_succ_of_ne_zero (Nat.ne_zero_of_lt hfuel)
      have hheight : Nat.max l.height r.height < fuel := Nat.lt_of_succ_lt_succ hfuel
      have hptr' : ptr ≠ 0#64 := hptr
      cases hgt : pred k x.key with
      | true =>
          obtain ⟨p, q, hpq, hp, hq, hrec⟩ := ihl (b := b) hl hol ((Nat.le_max_left _ _).trans_lt hheight)
          refine ⟨p, q ++ (ptr, x.key) :: r.inorder, by rw [Shape.inorder, hpq, List.append_assoc], hp, ?_, ?_⟩
          · intro y hy
            obtain hy | hy := List.mem_append.1 hy
            · exact hq y hy
            · obtain rfl | hy := List.mem_cons.1 hy
              · exact hgt
              · exact pred_of_behind (hkr y hy) hgt
          · rw [← hrec]
            simp [upperBoundLoop, hptr', hx, hgt]
      | false =>
          obtain ⟨p, q, hpq, hp, hq, hrec⟩ := ihr (b := ptr) hr hor ((Nat.le_max_right _ _).trans_lt hheight)
          refine ⟨l.inorder ++ (ptr, x.key) :: p, q, by simp [Shape.inorder, hpq], ?_, hq, ?_⟩
          · intro y hy
            obtain hy | hy := List.mem_append.1 hy
            · by_contra hne
              rcases pred_cotrans x.key (Bool.not_eq_false _ ▸ hne) with h | h
              · simp [hgt] at h
              · simp [hlk y hy] at h
            · obtain rfl | hy := List.mem_cons.1 hy
              · exact hgt
              · exact hp y hy
          · have hlast : ((l.inorder ++ (ptr, x.key) :: p).map Prod.fst).getLastD b =
                (p.map Prod.fst).getLastD ptr := by
              rw [List.map_append, List.map_cons, getLastD_append_cons]
            rw [hlast, ← hrec]
            simp [upperBoundLoop, hptr', hx, hgt]

end Order

/-! ## The place of a key -/

theorem run_findInsertPoint_here (h : Represents id mem up root (.node a k' red l r)) (hlt : pred k k' = false)
    (hgt : pred k' k = false) (fuel : Nat) :
    (findInsertPoint pred (fuel + 1) root k).run mem = some ((root, .here), mem) := by
  obtain ⟨rfl, hroot, x, hx, rfl, -⟩ := h
  have hroot' : root ≠ 0#64 := hroot
  simp [findInsertPoint, hroot', hx, hlt, hgt]

theorem run_findInsertPoint_left (h : Represents id mem up root (.node a k' red .leaf r)) (hlt : pred k k' = true)
    (fuel : Nat) : (findInsertPoint pred (fuel + 1) root k).run mem = some ((root, .left), mem) := by
  obtain ⟨rfl, hroot, x, hx, rfl, -, -, hl, -⟩ := h
  have hroot' : root ≠ 0#64 := hroot
  have hleft : x.left = 0#64 := hl
  simp [findInsertPoint, hroot', hx, hlt, hleft]

theorem run_findInsertPoint_right (h : Represents id mem up root (.node a k' red l .leaf)) (hlt : pred k k' = false)
    (hgt : pred k' k = true) (fuel : Nat) :
    (findInsertPoint pred (fuel + 1) root k).run mem = some ((root, .right), mem) := by
  obtain ⟨rfl, hroot, x, hx, rfl, -, -, -, hr⟩ := h
  have hroot' : root ≠ 0#64 := hroot
  have hright : x.right = 0#64 := hr
  simp [findInsertPoint, hroot', hx, hlt, hgt, hright]

/-- With a child on the key's side the call is made again with the same root. -/
theorem run_findInsertPoint_endless [IsStrictWeakOrder K fun a b => pred a b = true]
    (h : Represents id mem up root s) (hs : ¬ EndsAtRoot pred k s) (fuel : Nat) :
    (findInsertPoint pred fuel root k).run mem = none := by
  cases s with
  | leaf => exact absurd trivial hs
  | node a k' red l r =>
      obtain ⟨rfl, hroot, x, hx, rfl, -, -, hl, hr⟩ := h
      have hroot' : root ≠ 0#64 := hroot
      induction fuel with
      | zero => rfl
      | succ fuel ih =>
          cases hlt : pred k x.key with
          | true =>
              have hleft : x.left ≠ 0#64 := fun hz =>
                hs ⟨fun _ => hl.eq_zero_iff.1 hz, fun hgt => by simp [pred_asymm hlt] at hgt⟩
              simp [findInsertPoint, hroot', hx, hlt, hleft, ih]
          | false =>
              cases hgt : pred x.key k with
              | true =>
                  have hright : x.right ≠ 0#64 := fun hz => hs ⟨by simp [hlt], fun _ => hr.eq_zero_iff.1 hz⟩
                  simp [findInsertPoint, hroot', hx, hlt, hgt, hright, ih]
              | false => exact absurd ⟨by simp [hlt], by simp [hgt]⟩ hs

theorem IsTree.run_next (h : IsTree mem root s) (hfuel : s.height < fuel) {p q : List Word}
    (hs : s.addresses = p ++ a :: q) : (next fuel a).run mem = some (q.headD 0, mem) := by
  have hchain := h.next_chain hfuel
  rw [hs, List.append_assoc] at hchain
  cases q with
  | nil => exact (List.isChain_append_cons_cons.1 hchain).2.1
  | cons b q => exact (List.isChain_append_cons_cons.1 hchain).2.1

/-- The first greater node, of those that are parted into not greater and greater. -/
theorem Shape.upperOf_eq {p q : List (Word × K)} (hs : s.inorder = p ++ q) (hp : ∀ x ∈ p, pred k x.2 = false)
    (hq : ∀ x ∈ q, pred k x.2 = true) : s.upperOf pred k = (q.map Prod.fst).headD 0 := by
  have hnone : p.find? (fun x => pred k x.2) = none := by
    rw [List.find?_eq_none]
    intro x hx
    simp [hp x hx]
  rw [Shape.upperOf, hs, List.find?_append, hnone, Option.none_or]
  cases q with
  | nil => rfl
  | cons x q =>
      have hhead : (x :: q).find? (fun x => pred k x.2) = some x := List.find?_cons_of_pos (hq x List.mem_cons_self)
      rw [hhead]
      rfl

section Results

variable [hpred : IsStrictWeakOrder K fun a b => pred a b = true]

theorem lowerBound_found (h : Represents id mem up root (.node a k' red l r)) (ho : (Shape.node a k' red l r).Ordered pred)
    (hlt : pred k k' = false) (hgt : pred k' k = false) :
    Returns (fun fuel => lowerBound pred fuel root k) mem ((Shape.node a k' red l r).lowerOf pred k) := by
  refine ⟨(Shape.node a k' red l r).height + 1, fun fuel hfuel => ?_⟩
  obtain ⟨fuel, rfl⟩ := Nat.exists_eq_succ_of_ne_zero (Nat.ne_zero_of_lt hfuel)
  have hfind := run_findInsertPoint_here h hlt hgt fuel
  obtain ⟨rfl, hroot, x, hx, rfl, -, -, hl, -⟩ := h
  have hroot' : root ≠ 0#64 := hroot
  have hheight : l.height < fuel + 1 := (Nat.le_max_left _ _).trans_lt (Nat.lt_of_succ_le (Nat.le_of_succ_le hfuel))
  have hloop := run_lowerBoundLoop (b := root) (k := k) hl (ordered_node.1 ho).1 hheight
  have hlower : (Shape.node root x.key red l r).lowerOf pred k =
      ((l.inorder.find? fun x => !pred x.2 k).map Prod.fst).getD root := by
    rw [Shape.lowerOf, Shape.inorder, List.find?_append, List.find?_cons_of_pos (by simp [hgt])]
    cases l.inorder.find? fun x => !pred x.2 k <;> rfl
  rw [hlower, ← hloop]
  simp [lowerBound, hroot', hfind, hx]

theorem upperBound_found (h : IsTree mem root (.node a k' red l r)) (ho : (Shape.node a k' red l r).Ordered pred)
    (hlt : pred k k' = false) (hgt : pred k' k = false) :
    Returns (fun fuel => upperBound pred fuel root k) mem ((Shape.node a k' red l r).upperOf pred k) := by
  refine ⟨(Shape.node a k' red l r).height + 1, fun fuel hfuel => ?_⟩
  obtain ⟨fuel, rfl⟩ := Nat.exists_eq_succ_of_ne_zero (Nat.ne_zero_of_lt hfuel)
  have hfind := run_findInsertPoint_here h.represents hlt hgt fuel
  obtain ⟨-, hor, hlk, -, -⟩ := ordered_node.1 ho
  obtain ⟨rfl, hroot, x, hx, rfl, -, -, -, hr⟩ := h.represents
  have hroot' : root ≠ 0#64 := hroot
  have hheight : r.height < fuel + 1 := (Nat.le_max_right _ _).trans_lt (Nat.lt_of_succ_le (Nat.le_of_succ_le hfuel))
  obtain ⟨p, q, hpq, hp, hq, hloop⟩ := run_upperBoundLoop (b := root) (k := k) hr hor hheight
  have hupper : (Shape.node root x.key red l r).upperOf pred k = (q.map Prod.fst).headD 0 := by
    apply Shape.upperOf_eq (p := l.inorder ++ (root, x.key) :: p) _ _ hq
    · simp [Shape.inorder, hpq]
    · intro y hy
      obtain hy | hy := List.mem_append.1 hy
      · by_contra hne
        rcases pred_cotrans x.key (Bool.not_eq_false _ ▸ hne) with h | h
        · simp [hlt] at h
        · simp [hlk y hy] at h
      · obtain rfl | hy := List.mem_cons.1 hy
        · exact hlt
        · exact hp y hy
  have hnext : (next (fuel + 1) ((p.map Prod.fst).getLastD root)).run mem = some ((q.map Prod.fst).headD 0, mem) := by
    rcases List.eq_nil_or_concat p with rfl | ⟨p, y, rfl⟩
    · apply h.run_next (p := l.addresses) hfuel
      simp [Shape.addresses, Shape.inorder, hpq]
    · apply h.run_next (p := l.addresses ++ root :: p.map Prod.fst) hfuel
      simp [Shape.addresses, Shape.inorder, hpq]
  change (upperBoundLoop pred (fuel + 1) root x.right k).run mem = _ at hloop
  generalize (p.map Prod.fst).getLastD root = c at hloop hnext
  rw [hupper, ← hnext]
  simp [upperBound, hroot', hfind, hx, hloop]

theorem insertPoint_left {r : Shape K} (ho : (Shape.node root k' red .leaf r).Ordered pred) (hlt : pred k k' = true) :
    InsertPoint pred (.node root k' red .leaf r) k (root, .left) := by
  intro new nred
  obtain ⟨-, hor, -, hkr, -⟩ := ordered_node.1 ho
  refine ⟨_, .left, ordered_node.2 ⟨?_, hor, ?_, hkr, ?_⟩⟩
  · simp [Shape.Ordered, Shape.inorder]
  · simpa [Shape.inorder] using pred_asymm hlt
  · simp only [Shape.inorder, List.nil_append, List.mem_singleton, forall_eq]
    intro y hy
    by_contra hne
    have hyk := pred_trans (Bool.not_eq_false _ ▸ hne) hlt
    simp [hkr y hy] at hyk

theorem insertPoint_right {l : Shape K} (ho : (Shape.node root k' red l .leaf).Ordered pred) (hgt : pred k' k = true) :
    InsertPoint pred (.node root k' red l .leaf) k (root, .right) := by
  intro new nred
  obtain ⟨hol, -, hlk, -, -⟩ := ordered_node.1 ho
  refine ⟨_, .right, ordered_node.2 ⟨hol, ?_, hlk, ?_, ?_⟩⟩
  · simp [Shape.Ordered, Shape.inorder]
  · simpa [Shape.inorder] using pred_asymm hgt
  · simp only [Shape.inorder, List.nil_append, List.mem_singleton, forall_eq]
    intro y hy
    by_contra hne
    have hky := pred_trans hgt (Bool.not_eq_false _ ▸ hne)
    simp [hlk y hy] at hky

/-- Where the key's place is at the left of the root, the bounds are the root. -/
theorem bounds_left {r : Shape K} (hlt : pred k k' = true) :
    (Shape.node root k' red .leaf r).lowerOf pred k = root ∧ (Shape.node root k' red .leaf r).upperOf pred k = root := by
  simp [Shape.lowerOf, Shape.upperOf, Shape.inorder, hlt, pred_asymm hlt]

/-- Where it is at the right, there are none. -/
theorem bounds_right {l : Shape K} (ho : (Shape.node root k' red l .leaf).Ordered pred) (hgt : pred k' k = true) :
    (Shape.node root k' red l .leaf).lowerOf pred k = 0 ∧ (Shape.node root k' red l .leaf).upperOf pred k = 0 := by
  obtain ⟨-, -, hlk, -, -⟩ := ordered_node.1 ho
  have hall : ∀ x ∈ (Shape.node root k' red l .leaf).inorder, pred x.2 k = true := by
    simp only [Shape.inorder, List.mem_append, List.mem_singleton]
    rintro x (hx | rfl)
    · exact pred_of_before (hlk x hx) hgt
    · exact hgt
  have hlow : (Shape.node root k' red l .leaf).inorder.find? (fun x => !pred x.2 k) = none := by
    rw [List.find?_eq_none]
    intro x hx
    simp [hall x hx]
  have hup : (Shape.node root k' red l .leaf).inorder.find? (fun x => pred k x.2) = none := by
    rw [List.find?_eq_none]
    intro x hx
    simp [pred_asymm (hall x hx)]
  rw [Shape.lowerOf, Shape.upperOf, hlow, hup]
  exact ⟨rfl, rfl⟩

end Results

/-- The four queries end, with the results that they are for. -/
structure QueriesRight (pred : K → K → Bool) (mem : Memory K) (root : Word) (s : Shape K) (k : K) : Prop where
  insertPoint : ∃ place, Returns (fun fuel => findInsertPoint pred fuel root k) mem place ∧ InsertPoint pred s k place
  lowerBound : Returns (fun fuel => lowerBound pred fuel root k) mem (s.lowerOf pred k)
  upperBound : Returns (fun fuel => upperBound pred fuel root k) mem (s.upperOf pred k)
  equalRange : Returns (fun fuel => equalRange pred fuel root k) mem (s.lowerOf pred k, s.upperOf pred k)

/-- What the queries do where the tree is empty. -/
theorem queriesRight_leaf (h : Represents id mem up root (.leaf : Shape K)) (k : K) :
    QueriesRight pred mem root .leaf k := by
  have hroot : root = 0#64 := h
  have hfind : Returns (fun fuel => findInsertPoint pred fuel root k) mem (0, .here) := by
    refine ⟨1, fun fuel hfuel => ?_⟩
    obtain ⟨fuel, rfl⟩ := Nat.exists_eq_succ_of_ne_zero (Nat.ne_zero_of_lt hfuel)
    simp [findInsertPoint, hroot]
  exact ⟨⟨_, hfind, Or.inl ⟨rfl, rfl⟩⟩, ⟨0, fun fuel _ => by simp [lowerBound, hroot, Shape.lowerOf, Shape.inorder]⟩,
    ⟨0, fun fuel _ => by simp [upperBound, hroot, Shape.upperOf, Shape.inorder]⟩,
    ⟨0, fun fuel _ => by simp [equalRange, hroot, Shape.lowerOf, Shape.upperOf, Shape.inorder]⟩⟩

/-- What is built on the search does not end where the search does not. -/
theorem queries_endless [IsStrictWeakOrder K fun a b => pred a b = true] (h : Represents id mem up root s)
    (hs : ¬ EndsAtRoot pred k s) :
    (¬ ∃ place, Returns (fun fuel => findInsertPoint pred fuel root k) mem place) ∧
    (¬ ∃ n, Returns (fun fuel => lowerBound pred fuel root k) mem n) ∧
    (¬ ∃ n, Returns (fun fuel => upperBound pred fuel root k) mem n) ∧
    ¬ ∃ p, Returns (fun fuel => equalRange pred fuel root k) mem p := by
  have hnone := run_findInsertPoint_endless h hs
  have hroot : root ≠ 0#64 := fun hz => hs (by rw [h.eq_zero_iff.1 hz]; exact trivial)
  refine ⟨?_, ?_, ?_, ?_⟩ <;> rintro ⟨v, m, hm⟩ <;> have hrun := hm m le_rfl
  · simp [hnone] at hrun
  · simp [lowerBound, hroot, hnone] at hrun
  · simp [upperBound, hroot, hnone] at hrun
  · simp [equalRange, hroot, hnone] at hrun

/-- At the left of the root, the bounds are taken for one another. -/
theorem queries_left (h : IsTree mem root (.node a k' red .leaf r)) (hlt : pred k k' = true) :
    Returns (fun fuel => findInsertPoint pred fuel root k) mem (root, .left) ∧
    Returns (fun fuel => upperBound pred fuel root k) mem root ∧
    ∃ b ≠ root, Returns (fun fuel => lowerBound pred fuel root k) mem b ∧
      Returns (fun fuel => equalRange pred fuel root k) mem (b, b) := by
  have hfind := run_findInsertPoint_left h.represents hlt
  obtain ⟨rfl, hroot, -⟩ := h.represents
  have hroot' : root ≠ 0#64 := hroot
  have hsplit : (Shape.node root k' red .leaf r).addresses = [] ++ root :: r.addresses := by simp
  have hnext (fuel : Nat) (hfuel : (Shape.node root k' red .leaf r).height ≤ fuel) :
      (next (fuel + 1) root).run mem = some (r.addresses.headD 0, mem) := h.run_next (Nat.lt_succ_of_le hfuel) hsplit
  generalize (Shape.node root k' red .leaf r).height = d at hnext
  refine ⟨Returns.of_succ 0 fun fuel _ => hfind fuel, Returns.of_succ 0 fun fuel _ => ?_, r.addresses.headD 0, ?_,
    Returns.of_succ d fun fuel hfuel => ?_, Returns.of_succ d fun fuel hfuel => ?_⟩
  · simp [upperBound, hroot', hfind]
  · have hnodup := h.distinct
    rw [hsplit, List.nil_append, List.nodup_cons] at hnodup
    cases hr : r.addresses with
    | nil => exact hroot.symm
    | cons b bs =>
        rintro rfl
        exact hnodup.1 (by rw [hr]; exact List.mem_cons_self)
  · rw [← hnext fuel hfuel]
    simp [lowerBound, hroot', hfind]
  · have hstep := hnext fuel hfuel
    generalize r.addresses.headD 0 = b at hstep
    simp [equalRange, hroot', hfind, hstep]

theorem queries_right (h : IsTree mem root (.node a k' red l .leaf)) (hlt : pred k k' = false)
    (hgt : pred k' k = true) :
    Returns (fun fuel => findInsertPoint pred fuel root k) mem (root, .right) ∧
    Returns (fun fuel => upperBound pred fuel root k) mem 0 ∧
    Returns (fun fuel => lowerBound pred fuel root k) mem root ∧
    Returns (fun fuel => equalRange pred fuel root k) mem (root, root) := by
  have hfind := run_findInsertPoint_right h.represents hlt hgt
  obtain ⟨rfl, hroot, -⟩ := h.represents
  have hroot' : root ≠ 0#64 := hroot
  have hsplit : (Shape.node root k' red l .leaf).addresses = l.addresses ++ root :: [] := by simp
  have hnext (fuel : Nat) (hfuel : (Shape.node root k' red l .leaf).height ≤ fuel) :
      (next (fuel + 1) root).run mem = some (0, mem) := h.run_next (Nat.lt_succ_of_le hfuel) hsplit
  generalize (Shape.node root k' red l .leaf).height = d at hnext
  refine ⟨Returns.of_succ 0 fun fuel _ => hfind fuel, Returns.of_succ d fun fuel hfuel => ?_,
    Returns.of_succ 0 fun fuel _ => ?_, Returns.of_succ 0 fun fuel _ => ?_⟩
  · rw [← hnext fuel hfuel]
    simp [upperBound, hroot', hfind]
  · simp [lowerBound, hroot', hfind]
  · simp [equalRange, hroot', hfind]

section Results

variable [hpred : IsStrictWeakOrder K fun a b => pred a b = true]

/-- At an equal key, all is as it should be. -/
theorem queries_found (h : IsTree mem root (.node a k' red l r)) (ho : (Shape.node a k' red l r).Ordered pred)
    (hlt : pred k k' = false) (hgt : pred k' k = false) : QueriesRight pred mem root (.node a k' red l r) k := by
  have hfind := run_findInsertPoint_here h.represents hlt hgt
  have hlower := lowerBound_found h.represents ho hlt hgt
  have hupper := upperBound_found h ho hlt hgt
  obtain ⟨rfl, hroot, -⟩ := h.represents
  have hroot' : root ≠ 0#64 := hroot
  refine ⟨⟨_, Returns.of_succ 0 fun fuel _ => hfind fuel, Or.inr ⟨k', by simp [Shape.inorder], hlt, hgt⟩⟩, hlower,
    hupper, ?_⟩
  obtain ⟨m, hm⟩ := hlower
  obtain ⟨m', hm'⟩ := hupper
  refine Returns.of_succ (m + m') fun fuel hfuel => ?_
  have hl := hm (fuel + 1) (by omega)
  have hu := hm' (fuel + 1) (by omega)
  simp [equalRange, hroot', hfind, hl, hu]

/-- Where the key's place is at a side of the root, the bounds are taken for one another. -/
theorem queries_swapped (h : IsTree mem root s) (ho : s.Ordered pred) (hends : EndsAtRoot pred k s)
    (hfound : ¬ FoundAtRoot pred k s) :
    (∃ place, Returns (fun fuel => findInsertPoint pred fuel root k) mem place ∧ InsertPoint pred s k place) ∧
      Returns (fun fuel => upperBound pred fuel root k) mem (s.upperOf pred k) ∧
      ¬ Returns (fun fuel => lowerBound pred fuel root k) mem (s.lowerOf pred k) ∧
      ¬ Returns (fun fuel => equalRange pred fuel root k) mem (s.lowerOf pred k, s.upperOf pred k) := by
  cases s with
  | leaf => exact absurd trivial hfound
  | node a k' red l r =>
      obtain rfl := h.represents.1
      cases hlt : pred k k' with
      | true =>
          obtain rfl := hends.1 hlt
          obtain ⟨hfind, hupper, b, hb, hlower, hequal⟩ := queries_left h hlt
          have hbounds : (Shape.node root k' red .leaf r).lowerOf pred k = root ∧
              (Shape.node root k' red .leaf r).upperOf pred k = root := bounds_left hlt
          rw [hbounds.1, hbounds.2]
          exact ⟨⟨_, hfind, insertPoint_left ho hlt⟩, hupper, fun hroot => hb (hlower.unique hroot),
            fun hroot => hb (Prod.mk.inj (hequal.unique hroot)).1⟩
      | false =>
          have hgt : pred k' k = true := by
            by_contra hgt
            exact hfound ⟨hlt, Bool.not_eq_true _ ▸ hgt⟩
          obtain rfl := hends.2 hgt
          obtain ⟨hfind, hupper, hlower, hequal⟩ := queries_right h hlt hgt
          obtain ⟨hlow, hup⟩ := bounds_right ho hgt
          have hroot := h.represents.2.1
          rw [hlow, hup]
          exact ⟨⟨_, hfind, insertPoint_right ho hgt⟩, hupper, fun hzero => hroot (hlower.unique hzero),
            fun hzero => hroot (Prod.mk.inj (hequal.unique hzero)).1⟩

/-- The search and the upper bound are right where the root has no child on the key's side, and the other queries
where the root's key is equal; elsewhere they do not end, or take the one bound for the other. -/
theorem queries_iff (h : IsTree mem root s) (ho : s.Ordered pred) (k : K) :
    (QueriesRight pred mem root s k ↔ FoundAtRoot pred k s) ∧
    ((∃ place, Returns (fun fuel => findInsertPoint pred fuel root k) mem place ∧ InsertPoint pred s k place) ↔
      EndsAtRoot pred k s) ∧
    (Returns (fun fuel => lowerBound pred fuel root k) mem (s.lowerOf pred k) ↔ FoundAtRoot pred k s) ∧
    (Returns (fun fuel => upperBound pred fuel root k) mem (s.upperOf pred k) ↔ EndsAtRoot pred k s) ∧
    (Returns (fun fuel => equalRange pred fuel root k) mem (s.lowerOf pred k, s.upperOf pred k) ↔
      FoundAtRoot pred k s) := by
  by_cases hends : EndsAtRoot pred k s
  · by_cases hfound : FoundAtRoot pred k s
    · have hright : QueriesRight pred mem root s k := by
        cases s with
        | leaf => exact queriesRight_leaf h.represents k
        | node a k' red l r => exact queries_found h ho hfound.1 hfound.2
      exact ⟨iff_of_true hright hfound, iff_of_true hright.insertPoint hends, iff_of_true hright.lowerBound hfound,
        iff_of_true hright.upperBound hends, iff_of_true hright.equalRange hfound⟩
    · obtain ⟨hinsert, hupper, hlower, hequal⟩ := queries_swapped h ho hends hfound
      exact ⟨iff_of_false (fun hright => hlower hright.lowerBound) hfound, iff_of_true hinsert hends,
        iff_of_false hlower hfound, iff_of_true hupper hends, iff_of_false hequal hfound⟩
  · obtain ⟨hfind, hlower, hupper, hequal⟩ := queries_endless h.represents hends
    have hfound : ¬ FoundAtRoot pred k s := fun hfound => hends hfound.endsAtRoot
    exact ⟨iff_of_false (fun hright => hlower ⟨_, hright.lowerBound⟩) hfound,
      iff_of_false (fun ⟨_, hplace⟩ => hfind ⟨_, hplace.1⟩) hends, iff_of_false (fun hn => hlower ⟨_, hn⟩) hfound,
      iff_of_false (fun hn => hupper ⟨_, hn⟩) hends, iff_of_false (fun hp => hequal ⟨_, hp⟩) hfound⟩

end Results

def natLess (a b : Nat) : Bool := a < b

theorem natLess_iff {a b : Nat} : natLess a b = true ↔ a < b := decide_eq_true_iff

instance natLess_strictWeak : IsStrictWeakOrder Nat fun a b => natLess a b = true where
  irrefl a := mt natLess_iff.1 (lt_irrefl a)
  trans a b c hab hbc := natLess_iff.2 ((natLess_iff.1 hab).trans (natLess_iff.1 hbc))
  incomp_trans a b c := by
    simp only [natLess_iff]
    omega

theorem ordered_pair : pairShape.Ordered natLess := by
  simp [Shape.Ordered, pairShape, Shape.inorder, natLess]

/-- The key is that of the child. -/
theorem find_pair_endless : IsTree pairMemory 8 pairShape ∧ pairShape.Ordered natLess ∧
    ¬ ∃ place, Returns (fun fuel => findInsertPoint natLess fuel 8 2) pairMemory place := by
  refine ⟨isTree_pair, ordered_pair, (queries_endless isTree_pair.represents ?_).1⟩
  rintro ⟨-, hright⟩
  exact absurd (hright (by decide)) (by simp)

theorem queries_pair : QueriesRight natLess pairMemory 8 pairShape 1 :=
  (queries_iff isTree_pair ordered_pair 1).1.2 (by simp [pairShape, FoundAtRoot, natLess])

end XviOs.RBTree
