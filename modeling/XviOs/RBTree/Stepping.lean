import Mathlib.Data.List.Chain
import XviOs.RBTree.RedBlack

namespace XviOs.RBTree

variable {K α β : Type} {mem : Memory K} {up ptr root a b t n : Word} {s l r : Shape K} {x y : Node K} {fuel d : Nat}

namespace Shape

/-- The addresses of the nodes, in order. -/
def addresses (s : Shape K) : List Word := s.inorder.map Prod.fst

def height : Shape K → Nat
  | leaf => 0
  | node _ _ _ l r => Nat.max l.height r.height + 1

@[simp] theorem addresses_leaf : (leaf : Shape K).addresses = [] := rfl

@[simp] theorem addresses_node (a : Word) (k : K) (red : Bool) (l r : Shape K) :
    (node a k red l r).addresses = l.addresses ++ a :: r.addresses := by
  simp [addresses, inorder]

/-- The tree with all its left and right subtrees exchanged. -/
def mirror : Shape K → Shape K
  | leaf => leaf
  | node a k red l r => node a k red r.mirror l.mirror

@[simp] theorem addresses_mirror (s : Shape K) : s.mirror.addresses = s.addresses.reverse := by
  induction s with
  | leaf => rfl
  | node a k red l r ihl ihr => simp [mirror, ihl, ihr]

@[simp] theorem height_mirror (s : Shape K) : s.mirror.height = s.height := by
  induction s with
  | leaf => rfl
  | node a k red l r ihl ihr => simp [mirror, height, ihl, ihr, max_comm]

end Shape

/-- A tree of different nodes, with the links to the parents, that nothing is above. -/
structure IsTree (mem : Memory K) (root : Word) (s : Shape K) : Prop where
  represents : Represents id mem 0 root s
  distinct : s.addresses.Nodup

/-! ## The functions on one node -/

@[simp] theorem run_left (n : Word) (mem : Memory K) :
    (left n).run mem = (mem n).map fun x => (x.left, mem) := by
  cases h : mem n <;> simp [left, h]

@[simp] theorem run_right (n : Word) (mem : Memory K) :
    (right n).run mem = (mem n).map fun x => (x.right, mem) := by
  cases h : mem n <;> simp [right, h]

@[simp] theorem run_parent (n : Word) (mem : Memory K) :
    (parent n).run mem = (mem n).map fun x => (x.up, mem) := by
  cases h : mem n <;> simp [parent, h]

theorem run_isLeftChild_root (hx : mem n = some x) (hup : x.up = 0) : (isLeftChild n).run mem = some (false, mem) := by
  simp [isLeftChild, hx, hup]

theorem run_isRightChild_root (hx : mem n = some x) (hup : x.up = 0) :
    (isRightChild n).run mem = some (false, mem) := by
  simp [isRightChild, hx, hup]

theorem run_isLeftChild (hx : mem n = some x) (hup : x.up = a) (ha : a ≠ 0) (hy : mem a = some y) :
    (isLeftChild n).run mem = some (decide (y.left = n), mem) := by
  have hne : a ≠ 0#64 := ha
  simp [isLeftChild, hx, hup, hne, hy]

theorem run_isRightChild (hx : mem n = some x) (hup : x.up = a) (ha : a ≠ 0) (hy : mem a = some y) :
    (isRightChild n).run mem = some (decide (y.right = n), mem) := by
  have hne : a ≠ 0#64 := ha
  simp [isRightChild, hx, hup, hne, hy]

/-! ## From a node to the next -/

/-- What `next` does at a node without a right child. -/
def leave (fuel : Nat) (n : Word) : M K Word := do
  if ← isLeftChild n then parent n
  else if ← isRightChild n then parent (← climbRight fuel n)
  else return 0

/-- The end of the climb, and the step from there. -/
def ascend (fuel : Nat) (n : Word) : M K Word := do parent (← climbRight fuel n)

/-- Behind all the nodes of the subtree at `ptr` there is `t`. -/
def Leads (mem : Memory K) (d : Nat) (ptr t : Word) : Prop :=
  ∀ fuel, d ≤ fuel → (leave fuel ptr).run mem = some (t, mem) ∧ (ascend fuel ptr).run mem = some (t, mem)

theorem leads_root (hx : mem n = some x) (hup : x.up = 0) : Leads mem 1 n 0 := by
  rintro (_ | fuel) hfuel
  · exact absurd hfuel (by decide)
  · have hleft := run_isLeftChild_root hx hup
    have hright := run_isRightChild_root hx hup
    exact ⟨by simp [leave, hleft, hright], by simp [ascend, climbRight, hright, hx, hup]⟩

theorem leads_left (hx : mem n = some x) (hup : x.up = a) (ha : a ≠ 0) (hy : mem a = some y) (hleft : y.left = n)
    (hright : y.right ≠ n) : Leads mem 1 n a := by
  have hl : (isLeftChild n).run mem = some (true, mem) := by rw [run_isLeftChild hx hup ha hy, decide_eq_true hleft]
  have hr : (isRightChild n).run mem = some (false, mem) := by
    rw [run_isRightChild hx hup ha hy, decide_eq_false hright]
  rintro (_ | fuel) hfuel
  · exact absurd hfuel (by decide)
  · exact ⟨by simp [leave, hl, hx, hup], by simp [ascend, climbRight, hr, hx, hup]⟩

theorem leads_right (hx : mem n = some x) (hup : x.up = a) (ha : a ≠ 0) (hy : mem a = some y) (hleft : y.left ≠ n)
    (hright : y.right = n) (ht : Leads mem d a t) : Leads mem (d + 1) n t := by
  have hl : (isLeftChild n).run mem = some (false, mem) := by rw [run_isLeftChild hx hup ha hy, decide_eq_false hleft]
  have hr : (isRightChild n).run mem = some (true, mem) := by
    rw [run_isRightChild hx hup ha hy, decide_eq_true hright]
  rintro (_ | fuel) hfuel
  · omega
  · have hascend : (ascend (fuel + 1) n).run mem = some (t, mem) := by
      rw [← (ht fuel (by omega)).2]
      simp [ascend, climbRight, hr, hx, hup]
    refine ⟨?_, hascend⟩
    rw [← hascend]
    simp [leave, ascend, hl, hr]

theorem Represents.eq_zero_iff (h : Represents id mem up ptr s) : ptr = 0 ↔ s = .leaf := by
  cases s with
  | leaf => exact iff_of_true h rfl
  | node a k red l r =>
      obtain ⟨rfl, ha, -⟩ := h
      exact iff_of_false ha (by simp)

theorem Represents.mem_addresses (h : Represents id mem up ptr s) (hptr : ptr ≠ 0) : ptr ∈ s.addresses := by
  cases s with
  | leaf => exact absurd h hptr
  | node a k red l r =>
      obtain ⟨rfl, -⟩ := h
      simp

theorem Represents.up_eq (h : Represents id mem up ptr s) (hptr : ptr ≠ 0) : ∃ x, mem ptr = some x ∧ x.up = up := by
  cases s with
  | leaf => exact absurd h hptr
  | node a k red l r =>
      obtain ⟨rfl, -, x, hx, -, hup, -⟩ := h
      exact ⟨x, hx, hup⟩

theorem Represents.ne_zero (h : Represents id mem up ptr s) (ha : a ∈ s.addresses) : a ≠ 0 := by
  induction s generalizing up ptr with
  | leaf => simp at ha
  | node b k red l r ihl ihr =>
      obtain ⟨rfl, hb, x, hx, -, -, -, hl, hr⟩ := h
      simp only [Shape.addresses_node, List.mem_append, List.mem_cons] at ha
      obtain ha | rfl | ha := ha
      · exact ihl hl ha
      · exact hb
      · exact ihr hr ha

/-- The first node is at the end of the left children. -/
theorem run_min (h : Represents id mem up ptr s) (hs : s ≠ .leaf) (hfuel : s.height ≤ fuel) :
    (min fuel ptr).run mem = some (s.addresses.headD 0, mem) := by
  induction s generalizing up ptr fuel with
  | leaf => exact absurd rfl hs
  | node a k red l r ihl _ =>
      obtain ⟨rfl, -, x, hx, -, -, -, hl, -⟩ := h
      obtain _ | fuel := fuel
      · exact absurd hfuel (Nat.not_succ_le_zero _)
      · have hheight : l.height ≤ fuel := (Nat.le_max_left _ _).trans (Nat.le_of_succ_le_succ hfuel)
        rcases eq_or_ne l .leaf with rfl | hne
        · have hzero : x.left = 0 := hl
          simp [min, hx, hzero]
        · have hleft : x.left ≠ 0#64 := mt hl.eq_zero_iff.1 hne
          have hhead : (l.addresses ++ ptr :: r.addresses).headD 0 = l.addresses.headD 0 := by
            have hmem := hl.mem_addresses hleft
            cases hl' : l.addresses with
            | nil => simp [hl'] at hmem
            | cons b bs => rfl
          simp only [Shape.addresses_node, hhead, ← ihl hl hne hheight]
          simp [min, hx, hleft]

/-- From each node of a subtree `next` leads to the one behind it, and from the last to what is behind the subtree. -/
theorem next_chain (h : Represents id mem up ptr s) (hnodup : s.addresses.Nodup) (ht : Leads mem d ptr t)
    (hfuel : d + s.height ≤ fuel) :
    List.IsChain (fun a b => (next fuel a).run mem = some (b, mem)) (s.addresses ++ [t]) := by
  induction s generalizing up ptr d t with
  | leaf => exact List.IsChain.singleton t
  | node a k red l r ihl ihr =>
      obtain ⟨rfl, hptr, x, hx, -, -, -, hl, hr⟩ := h
      simp only [Shape.addresses_node] at hnodup
      obtain ⟨hnl, hnr', hdisj⟩ := List.nodup_append.1 hnodup
      have hnr := (List.nodup_cons.1 hnr').2
      have hmaxl : l.height ≤ Nat.max l.height r.height := Nat.le_max_left _ _
      have hmaxr : r.height ≤ Nat.max l.height r.height := Nat.le_max_right _ _
      have hdepth : d + (Nat.max l.height r.height + 1) ≤ fuel := hfuel
      have hne (hz : x.left ≠ 0 ∨ x.right ≠ 0) : x.left ≠ x.right := by
        intro heq
        have hzr : x.right ≠ 0 := by
          rw [heq] at hz
          tauto
        have hmeml := hl.mem_addresses (heq ▸ hzr)
        have hmemr := hr.mem_addresses hzr
        exact hdisj _ hmeml _ (List.mem_cons_of_mem _ hmemr) heq
      rw [Shape.addresses_node, List.append_assoc, List.cons_append, List.isChain_split]
      constructor
      · rcases eq_or_ne l .leaf with rfl | hleaf
        · exact List.IsChain.singleton _
        · have hz : x.left ≠ 0 := mt hl.eq_zero_iff.1 hleaf
          obtain ⟨y, hy, hup⟩ := hl.up_eq hz
          have hd := leads_left hy hup hptr hx rfl (hne (Or.inl hz)).symm
          exact ihl hl hnl hd (by omega)
      · rcases eq_or_ne r .leaf with rfl | hleaf
        · have hzero : x.right = 0 := hr
          have hleave := (ht fuel (by omega)).1
          refine List.isChain_cons_cons.2 ⟨?_, List.IsChain.singleton t⟩
          rw [← hleave]
          simp [next, leave, hx, hzero]
        · have hz : x.right ≠ 0 := mt hr.eq_zero_iff.1 hleaf
          obtain ⟨y, hy, hup⟩ := hr.up_eq hz
          have hd := leads_right hy hup hptr hx (hne (Or.inr hz)) rfl ht
          have hz' : x.right ≠ 0#64 := hz
          have hmin := run_min hr hleaf (by omega : r.height ≤ fuel)
          have hchain := ihr hr hnr hd (by omega)
          have hmem := hr.mem_addresses hz
          cases hra : r.addresses with
          | nil => simp [hra] at hmem
          | cons b bs =>
              rw [hra] at hchain hmin
              refine List.isChain_cons_cons.2 ⟨?_, hchain⟩
              have hmin' : (min fuel x.right).run mem = some (b, mem) := hmin
              simp [next, hx, hz', hmin']

/-! ## The same with left and right exchanged -/

def Node.mirror (x : Node K) : Node K := { x with left := x.right, right := x.left }

def mirrored (mem : Memory K) : Memory K := fun a => (mem a).map Node.mirror

theorem mirrored_mirrored (mem : Memory K) : mirrored (mirrored mem) = mem := by
  funext a
  cases h : mem a <;> simp [mirrored, h, Node.mirror]

theorem Represents.mirror (h : Represents id mem up ptr s) : Represents id (mirrored mem) up ptr s.mirror := by
  induction s generalizing up ptr with
  | leaf => exact h
  | node a k red l r ihl ihr =>
      obtain ⟨rfl, ha, x, hx, hk, hup, hred, hl, hr⟩ := h
      exact ⟨rfl, ha, x.mirror, by rw [mirrored, hx]; rfl, hk, hup, hred, ihr hr, ihl hl⟩

/-- The second computation does on the exchanged nodes what the first does. -/
def Mirrors (c c' : M K α) : Prop :=
  ∀ mem, (c.run mem).map (fun p => (p.1, mirrored p.2)) = c'.run (mirrored mem)

theorem mirrors_pure (v : α) : Mirrors (pure v : M K α) (pure v) := fun _ => rfl

theorem mirrors_diverge : Mirrors (diverge : M K α) diverge := fun _ => rfl

theorem Mirrors.bind {c c' : M K α} {f f' : α → M K β} (hc : Mirrors c c') (hf : ∀ v, Mirrors (f v) (f' v)) :
    Mirrors (c >>= f) (c' >>= f') := by
  intro mem
  rw [StateT.run_bind, StateT.run_bind, ← hc mem]
  cases h : c.run mem with
  | none => rfl
  | some p => exact hf p.1 p.2

theorem Mirrors.ite {c c' e e' : M K α} (b : Prop) [Decidable b] (hc : Mirrors c c') (he : Mirrors e e') :
    Mirrors (if b then c else e) (if b then c' else e') := by
  split
  · exact hc
  · exact he

theorem mirrors_left (n : Word) : Mirrors (left n : M K Word) (right n) := by
  intro mem
  cases h : mem n <;> simp [mirrored, h, Node.mirror]

theorem mirrors_right (n : Word) : Mirrors (right n : M K Word) (left n) := by
  intro mem
  cases h : mem n <;> simp [mirrored, h, Node.mirror]

theorem mirrors_parent (n : Word) : Mirrors (parent n : M K Word) (parent n) := by
  intro mem
  cases h : mem n <;> simp [mirrored, h, Node.mirror, Node.up]

theorem mirrors_isLeftChild (n : Word) : Mirrors (isLeftChild n : M K Bool) (isRightChild n) := by
  apply (mirrors_parent n).bind
  intro p
  apply Mirrors.ite
  · exact mirrors_pure false
  · exact (mirrors_left p).bind fun c => mirrors_pure _

theorem mirrors_isRightChild (n : Word) : Mirrors (isRightChild n : M K Bool) (isLeftChild n) := by
  apply (mirrors_parent n).bind
  intro p
  apply Mirrors.ite
  · exact mirrors_pure false
  · exact (mirrors_right p).bind fun c => mirrors_pure _

theorem mirrors_max (fuel : Nat) (n : Word) : Mirrors (max fuel n : M K Word) (min fuel n) := by
  induction fuel generalizing n with
  | zero => exact mirrors_diverge
  | succ fuel ih =>
      apply (mirrors_right n).bind
      intro r
      exact Mirrors.ite _ (ih r) (mirrors_pure n)

theorem mirrors_climbLeft (fuel : Nat) (n : Word) : Mirrors (climbLeft fuel n : M K Word) (climbRight fuel n) := by
  induction fuel generalizing n with
  | zero => exact mirrors_diverge
  | succ fuel ih =>
      apply (mirrors_isLeftChild n).bind
      intro v
      exact Mirrors.ite _ ((mirrors_parent n).bind ih) (mirrors_pure n)

theorem mirrors_prev (fuel : Nat) (n : Word) : Mirrors (prev fuel n : M K Word) (next fuel n) := by
  apply (mirrors_left n).bind
  intro l
  apply Mirrors.ite
  · exact mirrors_max fuel l
  · apply (mirrors_isRightChild n).bind
    intro v
    apply Mirrors.ite
    · exact mirrors_parent n
    · apply (mirrors_isLeftChild n).bind
      intro w
      exact Mirrors.ite _ ((mirrors_climbLeft fuel n).bind mirrors_parent) (mirrors_pure 0)

theorem run_prev_iff : (prev fuel a).run mem = some (b, mem) ↔
    (next fuel a).run (mirrored mem) = some (b, mirrored mem) := by
  rw [← mirrors_prev fuel a mem]
  constructor
  · intro h
    rw [h]
    rfl
  · intro h
    obtain ⟨p, hp, heq⟩ := Option.map_eq_some_iff.1 h
    obtain ⟨hb, hmem⟩ := Prod.mk.inj heq
    have hmem' : p.2 = mem := by rw [← mirrored_mirrored p.2, hmem, mirrored_mirrored]
    rw [hp, ← hb, ← hmem']

/-! ## Through a whole tree -/

theorem IsTree.mirror (h : IsTree mem root s) : IsTree (mirrored mem) root s.mirror where
  represents := h.represents.mirror
  distinct := by
    rw [Shape.addresses_mirror]
    exact List.nodup_reverse.2 h.distinct

theorem IsTree.next_chain (h : IsTree mem root s) (hfuel : s.height < fuel) :
    List.IsChain (fun a b => (next fuel a).run mem = some (b, mem)) (s.addresses ++ [0]) := by
  rcases eq_or_ne root 0 with hzero | hne
  · obtain rfl := h.represents.eq_zero_iff.1 hzero
    exact List.IsChain.singleton 0
  · obtain ⟨x, hx, hup⟩ := h.represents.up_eq hne
    exact RBTree.next_chain h.represents h.distinct (leads_root hx hup) (by omega)

theorem IsTree.prev_chain (h : IsTree mem root s) (hfuel : s.height < fuel) :
    List.IsChain (fun a b => (prev fuel b).run mem = some (a, mem)) (0 :: s.addresses) := by
  have hheight : s.mirror.height < fuel := by rwa [Shape.height_mirror]
  have hchain := h.mirror.next_chain hheight
  rw [← List.isChain_reverse, List.reverse_cons, ← Shape.addresses_mirror]
  exact hchain.imp fun a b hab => run_prev_iff.2 hab

/-- The nodes from `n` on, each found by `next` from the one before. -/
def visit (fuel : Nat) : Nat → Word → M K (List Word)
  | 0, _ => diverge
  | steps + 1, n => do
    if n = 0 then return []
    return n :: (← visit fuel steps (← next fuel n))

theorem run_visit {l : List Word} {steps : Nat} (hl : ∀ a ∈ l, a ≠ 0) (hsteps : l.length < steps)
    (hchain : List.IsChain (fun a b => (next fuel a).run mem = some (b, mem)) (l ++ [0])) :
    (visit fuel steps (l.headD 0)).run mem = some (l, mem) := by
  induction l generalizing steps with
  | nil =>
      obtain ⟨steps, rfl⟩ := Nat.exists_eq_succ_of_ne_zero (Nat.ne_of_gt hsteps)
      simp [visit]
  | cons a l ih =>
      obtain ⟨steps, rfl⟩ := Nat.exists_eq_succ_of_ne_zero (Nat.ne_zero_of_lt hsteps)
      have ha : a ≠ 0#64 := hl a List.mem_cons_self
      have hrest : (visit fuel steps (l.headD 0)).run mem = some (l, mem) :=
        ih (fun b hb => hl b (List.mem_cons_of_mem a hb)) (Nat.lt_of_succ_lt_succ hsteps) (List.IsChain.tail hchain)
      have hnext : (next fuel a).run mem = some (l.headD 0, mem) := by
        cases l with
        | nil => exact (List.isChain_cons_cons.1 hchain).1
        | cons b l => exact (List.isChain_cons_cons.1 hchain).1
      generalize l.headD 0 = b at hrest hnext
      simp [visit, ha, hnext, hrest]

theorem IsTree.next_of_mem (h : IsTree mem root s) (hfuel : s.height < fuel) (ha : a ∈ s.addresses) :
    ∃ b, (next fuel a).run mem = some (b, mem) ∧ (b ≠ 0 → (prev fuel b).run mem = some (a, mem)) := by
  have hnext := h.next_chain hfuel
  have hprev := h.prev_chain hfuel
  obtain ⟨pre, post, hs⟩ := List.append_of_mem ha
  rw [hs] at hnext hprev
  rw [List.append_assoc] at hnext
  cases post with
  | nil => exact ⟨0, (List.isChain_append_cons_cons.1 hnext).2.1, fun hne => absurd rfl hne⟩
  | cons b post =>
      exact ⟨b, (List.isChain_append_cons_cons.1 hnext).2.1,
        fun _ => (List.isChain_cons_append_cons_cons.1 hprev).2.1⟩

theorem IsTree.prev_of_mem (h : IsTree mem root s) (hfuel : s.height < fuel) (ha : a ∈ s.addresses) :
    ∃ b, (prev fuel a).run mem = some (b, mem) ∧ (b ≠ 0 → (next fuel b).run mem = some (a, mem)) := by
  have hnext := h.next_chain hfuel
  have hprev := h.prev_chain hfuel
  obtain ⟨pre, post, hs⟩ := List.append_of_mem ha
  rw [hs] at hnext hprev
  rcases List.eq_nil_or_concat pre with rfl | ⟨pre, b, rfl⟩
  · exact ⟨0, (List.isChain_cons_cons.1 hprev).1, fun hne => absurd rfl hne⟩
  · rw [List.concat_eq_append, List.append_assoc] at hnext hprev
    rw [List.append_assoc] at hnext
    exact ⟨b, (List.isChain_cons_append_cons_cons.1 hprev).2.1, fun _ => (List.isChain_append_cons_cons.1 hnext).2.1⟩

/-- `next` and `prev` end at every node of a tree and undo each other, and from the first node on `next` leads through
all the nodes in their order. -/
theorem next_prev (h : IsTree mem root s) (hfuel : s.height < fuel) :
    (∀ a ∈ s.addresses, (∃ b, (next fuel a).run mem = some (b, mem)) ∧ ∃ b, (prev fuel a).run mem = some (b, mem)) ∧
    (s ≠ .leaf → ∃ first, (min fuel root).run mem = some (first, mem) ∧
      ∀ steps, s.addresses.length < steps → (visit fuel steps first).run mem = some (s.addresses, mem)) ∧
    s.addresses.Nodup ∧
    ∀ a ∈ s.addresses, ∀ b ≠ 0, ((next fuel a).run mem = some (b, mem) → (prev fuel b).run mem = some (a, mem)) ∧
      ((prev fuel a).run mem = some (b, mem) → (next fuel b).run mem = some (a, mem)) := by
  have heq {b c : Word} {r : Option (Word × Memory K)} (hb : r = some (b, mem)) (hc : r = some (c, mem)) : b = c := by
    rw [hb] at hc
    exact (Prod.mk.inj (Option.some.inj hc)).1
  refine ⟨fun a ha => ⟨?_, ?_⟩, fun hs => ?_, h.distinct, fun a ha b hb => ⟨fun hab => ?_, fun hab => ?_⟩⟩
  · exact (h.next_of_mem hfuel ha).imp fun _ hb => hb.1
  · exact (h.prev_of_mem hfuel ha).imp fun _ hb => hb.1
  · exact ⟨_, run_min h.represents hs hfuel.le,
      fun steps hsteps => run_visit (fun a ha => h.represents.ne_zero ha) hsteps (h.next_chain hfuel)⟩
  · obtain ⟨c, hc, hback⟩ := h.next_of_mem hfuel ha
    obtain rfl := heq hab hc
    exact hback hb
  · obtain ⟨c, hc, hback⟩ := h.prev_of_mem hfuel ha
    obtain rfl := heq hab hc
    exact hback hb

/-- A node with a right child. -/
def pairMemory : Memory Nat :=
  Function.update (Function.update (fun _ => none) 16 (some ⟨0, 0, 8, 2⟩)) 8 (some ⟨0, 16, 0, 1⟩)

def pairShape : Shape Nat := .node 8 1 false .leaf (.node 16 2 false .leaf .leaf)

theorem isTree_pair : IsTree pairMemory 8 pairShape where
  represents := by
    refine ⟨rfl, by decide, _, rfl, rfl, rfl, rfl, rfl, rfl, by decide, _, rfl, rfl, rfl, rfl, rfl, rfl⟩
  distinct := by decide

theorem next_prev_pair : (next 4 8).run pairMemory = some (16, pairMemory) ∧
    (prev 4 16).run pairMemory = some (8, pairMemory) := by
  have hnext : (next 4 8).run pairMemory = some (16, pairMemory) := rfl
  exact ⟨hnext, ((next_prev isTree_pair (by decide)).2.2.2 8 (by decide) 16 (by decide)).1 hnext⟩

end XviOs.RBTree
