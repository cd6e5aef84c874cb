import XviOs.Library.Runs
import XviOs.RBTree.Node

namespace XviOs.RBTree

variable {K : Type}

/-- The tree object: the root, and what it caches about its nodes. -/
structure Tree where
  root : Word := 0
  min : Word := 0
  max : Word := 0
  size : BitVec 64 := 0

namespace Tree

variable (pred : K → K → Bool) (t : Tree)

def updateMinmaxAfterInsert (n : Word) (k : K) : M K Tree := do
  let first ← if t.min = 0 then pure true else do pure (pred k (← key t.min))
  let t := if first then { t with min := n } else t
  -- the source tests that there is a maximum, where for the minimum it tests that there is none
  let last ← if t.max ≠ 0 then pure true else do pure (pred (← key t.max) k)
  return if last then { t with max := n } else t

def updateMinmaxAfterRemoval (fuel : Nat) (n : Word) : M K Tree := do
  if n = t.min then return { t with min := ← RBTree.min fuel t.root }
  else if n = t.max then return { t with max := ← RBTree.max fuel t.root }
  else return t

/-- The common end of the insertions: the node is linked in below `at`. -/
def insertAt (fuel : Nat) (parent new : Word) (k : K) : M K Tree := do
  let root ← insert pred fuel parent new k
  updateMinmaxAfterInsert pred { t with root := root, size := t.size + 1 } new k

/-- The node with the key and the tree; the first node is not counted. -/
def insertUnique (fuel : Nat) (new : Word) (k : K) : M K (Word × Tree) := do
  if t.root = 0 then return (new, { t with root := new, min := new, max := new })
  match ← findInsertPoint pred fuel t.root k with
  | (found, .here) => return (found, t)
  | (parent, _) => return (new, ← insertAt pred t fuel parent new k)

def insertNonunique (fuel : Nat) (new : Word) (k : K) : M K (Word × Tree) := do
  if t.root = 0 then return (new, { t with root := new, min := new, max := new })
  let parent ← match ← findInsertPoint pred fuel t.root k with
    | (found, .here) => do
      let bound ← upperBound pred fuel found k
      pure (if bound = 0 then t.max else bound)
    | (parent, _) => pure parent
  return (new, ← insertAt pred t fuel parent new k)

def extract (fuel : Nat) (which : Word) : M K Tree := do
  let (root, n) ← remove fuel which
  updateMinmaxAfterRemoval { t with root := root, size := t.size - 1 } fuel n

end Tree

/-- A node at a free address: its words are zeroed, and then it is made red. -/
def newNode (address : Word) (k : K) : M K Unit := do
  set (Function.update (← get) address (some ⟨0, 0, 0, k⟩))
  setRed address

inductive Operation (K : Type)
  | newNode (address : Word) (key : K)
  | insertUnique (node : Word)
  | insertNonunique (node : Word)
  | extract (node : Word)

def Operation.inserts : Operation K → Bool
  | .insertUnique _ => true
  | .insertNonunique _ => true
  | _ => false

/-- A tree, the memory its nodes are in, and the nodes that its user holds. -/
structure Session (K : Type) where
  tree : Tree
  mem : Memory K
  held : List Word

namespace Session

variable (pred : K → K → Bool) (fuel : Nat)

def empty : Session K := ⟨{}, fun _ => none, []⟩

/-- A node that was not taken in, as its key is in the tree, stays with the user. -/
def step (σ : Session K) : Operation K → Option (Session K)
  | .newNode address k => do
    let ((), mem) ← (newNode address k).run σ.mem
    return { σ with mem := mem, held := address :: σ.held }
  | .insertUnique n => do
    let (k, _) ← (key n).run σ.mem
    let ((found, tree), mem) ← (σ.tree.insertUnique pred fuel n k).run σ.mem
    return ⟨tree, mem, if found = n then σ.held.erase n else σ.held⟩
  | .insertNonunique n => do
    let (k, _) ← (key n).run σ.mem
    let ((_, tree), mem) ← (σ.tree.insertNonunique pred fuel n k).run σ.mem
    return ⟨tree, mem, σ.held.erase n⟩
  | .extract n => do
    let (tree, mem) ← (σ.tree.extract fuel n).run σ.mem
    return ⟨tree, mem, n :: σ.held⟩

/-- Nodes are made at free addresses, aligned to a word, and are either held by the user
or in the tree. -/
def Allowed (σ : Session K) : Operation K → Prop
  | .newNode address _ => σ.mem address = none ∧ address ≠ 0 ∧ address.toNat % 8 = 0
  | .insertUnique n => n ∈ σ.held
  | .insertNonunique n => n ∈ σ.held
  | .extract n => (σ.mem n).isSome ∧ n ∉ σ.held

end Session

end XviOs.RBTree

namespace XviOs.RBTree

open Library.Runs

variable {K : Type}

/-- The tree that a root pointer stands for: nodes with address, key and colour. -/
inductive Shape (K : Type)
  | leaf
  | node (address : Word) (key : K) (red : Bool) (l r : Shape K)

namespace Shape

def inorder : Shape K → List (Word × K)
  | leaf => []
  | node a k _ l r => l.inorder ++ (a, k) :: r.inorder

def isRed : Shape K → Bool
  | leaf => false
  | node _ _ red _ _ => red

def blackHeight : Shape K → Nat
  | leaf => 0
  | node _ _ red l _ => l.blackHeight + if red then 0 else 1

/-- No red node has a red child, and all paths to a leaf have the same number of black nodes. -/
def Balanced : Shape K → Prop
  | leaf => True
  | node _ _ red l r => l.Balanced ∧ r.Balanced ∧ l.blackHeight = r.blackHeight ∧
      (red = true → l.isRed = false ∧ r.isRed = false)

/-- No key comes after a greater one. -/
def Ordered (pred : K → K → Bool) (s : Shape K) : Prop :=
  s.inorder.Pairwise fun x y => pred y.2 x.2 = false

end Shape

/-- The pointer `ptr`, in a node at `up`, stands for a tree; `child` reads the word of a child. -/
def Represents (child : Word → Word) (mem : Memory K) : Word → Word → Shape K → Prop
  | _, ptr, .leaf => ptr = 0
  | up, ptr, .node a k red l r => ptr = a ∧ a ≠ 0 ∧ ∃ x, mem a = some x ∧ x.key = k ∧ x.up = up ∧ x.isRed = red ∧
      Represents child mem a (child x.left) l ∧ Represents child mem a (child x.right) r

namespace Session

/-- A binary search tree with parent pointers, and with the colours of a red-black tree. -/
def RedBlack (pred : K → K → Bool) (σ : Session K) : Prop :=
  ∃ s, Represents id σ.mem 0 σ.tree.root s ∧ s.Ordered pred ∧ s.isRed = false ∧ s.Balanced

/-- The size, the minimum and the maximum are those of the tree, whose child pointers are
read without flags. -/
def CachesRight (σ : Session K) : Prop :=
  ∃ s, Represents (· &&& ptrMask) σ.mem 0 σ.tree.root s ∧ σ.tree.size.toNat = s.inorder.length ∧
    σ.tree.min = (s.inorder.head?.map Prod.fst).getD 0 ∧ σ.tree.max = (s.inorder.getLast?.map Prod.fst).getD 0

/-- The state before the first insertion: an empty tree, and new nodes. -/
structure Fresh (σ : Session K) : Prop where
  tree : σ.tree = {}
  held : ∀ a, (σ.mem a).isSome → a ∈ σ.held
  aligned : ∀ a, (σ.mem a).isSome → a ≠ 0 ∧ a.toNat % 8 = 0
  words : ∀ a x, σ.mem a = some x → x.left = 1 ∧ x.right = 0 ∧ x.parent = 0

variable {pred : K → K → Bool} {fuel : Nat} {σ τ : Session K} {c : Operation K} {cs : List (Operation K)}

theorem fresh_empty : Fresh (empty : Session K) := by
  constructor <;> simp [empty]

theorem run_newNode (a : Word) (k : K) (mem : Memory K) :
    (newNode a k).run mem = some ((), Function.update mem a (some ⟨1, 0, 0, k⟩)) := by
  have hone : (0 : Word) ||| flagRed = 1 := by decide
  simp [newNode, setRed, ← hone]

theorem step_newNode (hσ : σ.Fresh) {a : Word} {k : K} (ha : Allowed σ (.newNode a k))
    (hs : step pred fuel σ (.newNode a k) = some τ) : τ.Fresh := by
  obtain ⟨_, hnull, halign⟩ := ha
  simp only [step, run_newNode, Option.bind_eq_bind, Option.bind_some, Option.pure_def, Option.some.injEq] at hs
  subst hs
  refine ⟨hσ.tree, fun b hb => ?_, fun b hb => ?_, fun b x hb => ?_⟩ <;> dsimp only at hb ⊢ <;>
    rcases eq_or_ne b a with rfl | hne
  · exact List.mem_cons_self
  · rw [Function.update_of_ne hne] at hb
    exact List.mem_cons_of_mem a (hσ.held b hb)
  · exact ⟨hnull, halign⟩
  · rw [Function.update_of_ne hne] at hb
    exact hσ.aligned b hb
  · rw [Function.update_self] at hb
    obtain rfl := Option.some.inj hb
    exact ⟨rfl, rfl, rfl⟩
  · rw [Function.update_of_ne hne] at hb
    exact hσ.words b x hb

/-- The first insertion, of either kind: the node becomes the root and is not counted. -/
theorem step_insert (hσ : σ.Fresh) (hc : c.inserts = true) (hs : step pred fuel σ c = some τ) :
    ∃ n x, σ.mem n = some x ∧ τ.mem = σ.mem ∧ τ.tree = ⟨n, n, n, 0⟩ := by
  cases c with
  | newNode a k => simp [Operation.inserts] at hc
  | extract n => simp [Operation.inserts] at hc
  | insertUnique n =>
      cases hx : σ.mem n with
      | none => simp [step, hx] at hs
      | some x =>
          simp [step, hx, hσ.tree, Tree.insertUnique] at hs
          subst hs
          exact ⟨n, x, hx, rfl, rfl⟩
  | insertNonunique n =>
      cases hx : σ.mem n with
      | none => simp [step, hx] at hs
      | some x =>
          simp [step, hx, hσ.tree, Tree.insertNonunique] at hs
          subst hs
          exact ⟨n, x, hx, rfl, rfl⟩

/-- Nothing is in the tree before the first insertion, so that nothing can be extracted. -/
theorem fresh_run (hr : Execution (step pred fuel) Allowed empty cs σ) (hno : ∀ c ∈ cs, c.inserts = false) :
    σ.Fresh := by
  induction hr with
  | nil => exact fresh_empty
  | @snoc cs t u c hr ha hs ih =>
      have ht := ih fun d hd => hno d (List.mem_append_left [c] hd)
      have hc := hno c (by simp)
      cases c with
      | newNode a k => exact step_newNode ht ha hs
      | insertUnique n => simp [Operation.inserts] at hc
      | insertNonunique n => simp [Operation.inserts] at hc
      | extract n => exact absurd (ht.held n ha.1) ha.2

/-- A property of the first states that no insertion into an empty tree leads to holds
throughout the runs without insertions, and in no others. -/
theorem throughout_iff (P : Session K → Prop) (hfresh : ∀ σ, Fresh σ → P σ)
    (hinsert : ∀ σ τ c, Fresh σ → c.inserts = true → step pred fuel σ c = some τ → ¬ P τ)
    (hr : Execution (step pred fuel) Allowed empty cs σ) :
    (∀ ds τ, ds <+: cs → Execution (step pred fuel) Allowed empty ds τ → P τ) ↔
      ∀ c ∈ cs, c.inserts = false := by
  constructor
  · intro hall
    induction hr with
    | nil => simp
    | @snoc cs t u c hr ha hs ih =>
        have hno := ih fun ds τ hd => hall ds τ (hd.trans (List.prefix_append cs [c]))
        intro d hd
        rcases List.mem_append.mp hd with hd | hd
        · exact hno d hd
        · obtain rfl := List.mem_singleton.mp hd
          by_contra hc
          exact hinsert t u d (fresh_run hr hno) (by simpa using hc) hs (hall _ u (List.prefix_refl _) (.snoc hr ha hs))
  · intro hno ds τ hd hr
    exact hfresh τ (fresh_run hr fun c hc => hno c (hd.subset hc))

theorem redBlack_fresh (hσ : σ.Fresh) : σ.RedBlack pred := by
  refine ⟨.leaf, ?_, List.Pairwise.nil, rfl, trivial⟩
  rw [hσ.tree]
  rfl

/-- The root's left child is the flag of the colour, which is no node. -/
theorem not_redBlack_insert (hσ : σ.Fresh) (hc : c.inserts = true) (hs : step pred fuel σ c = some τ) :
    ¬ τ.RedBlack pred := by
  obtain ⟨n, x, hx, hmem, htree⟩ := step_insert hσ hc hs
  rintro ⟨s, hrep, -⟩
  rw [htree, hmem] at hrep
  cases s with
  | leaf => exact (hσ.aligned n (by simp [hx])).1 hrep
  | node a k red l r =>
      obtain ⟨rfl, -, y, hy, -, -, -, hl, -⟩ := hrep
      rw [id, (hσ.words _ y hy).1] at hl
      cases l with
      | leaf =>
          have hone : (1 : Word) = 0 := hl
          exact absurd hone (by decide)
      | node b k' red' l' r' =>
          obtain ⟨hb, -, z, hz, -⟩ := hl
          have halign := (hσ.aligned b (by simp [hz])).2
          rw [← hb] at halign
          exact absurd halign (by decide)

theorem cachesRight_fresh (hσ : σ.Fresh) : σ.CachesRight := by
  refine ⟨.leaf, ?_, ?_, ?_, ?_⟩ <;> rw [hσ.tree] <;> rfl

/-- There is a node in the tree, and the size is 0. -/
theorem not_cachesRight_insert (hσ : σ.Fresh) (hc : c.inserts = true) (hs : step pred fuel σ c = some τ) :
    ¬ τ.CachesRight := by
  obtain ⟨n, x, hx, hmem, htree⟩ := step_insert hσ hc hs
  rintro ⟨s, hrep, hsize, -⟩
  rw [htree] at hrep hsize
  cases s with
  | leaf => exact (hσ.aligned n (by simp [hx])).1 hrep
  | node a k red l r => simp [Shape.inorder] at hsize

/-- The run that makes a node at the address 8. -/
theorem run_newNode_eight (k : K) : Execution (step pred fuel) Allowed empty [.newNode 8 k]
    ⟨{}, Function.update (fun _ => none) 8 (some ⟨1, 0, 0, k⟩), [8]⟩ := by
  have hs : step pred fuel empty (.newNode 8 k) =
      some ⟨{}, Function.update (fun _ => none) 8 (some ⟨1, 0, 0, k⟩), [8]⟩ := by
    simp only [step, run_newNode, Option.bind_eq_bind, Option.bind_some, Option.pure_def]
    rfl
  exact .snoc .nil ⟨rfl, by decide, by decide⟩ hs

theorem step_insert_eight (k : K) : step pred fuel
    ⟨{}, Function.update (fun _ => none) 8 (some ⟨1, 0, 0, k⟩), [8]⟩ (.insertUnique 8) =
      some ⟨⟨8, 8, 8, 0⟩, Function.update (fun _ => none) 8 (some ⟨1, 0, 0, k⟩), []⟩ := by
  simp [step, Tree.insertUnique]

/-- The node made there is inserted. -/
theorem run_insert_eight (k : K) : Execution (step pred fuel) Allowed empty [.newNode 8 k, .insertUnique 8]
    ⟨⟨8, 8, 8, 0⟩, Function.update (fun _ => none) 8 (some ⟨1, 0, 0, k⟩), []⟩ := by
  exact .snoc (run_newNode_eight k) (List.mem_singleton.mpr rfl) (step_insert_eight k)

/-- The tree is a red-black tree after every operation exactly in the runs that insert nothing. -/
theorem redBlack_iff (hr : Execution (step pred fuel) Allowed empty cs σ) :
    (∀ ds τ, ds <+: cs → Execution (step pred fuel) Allowed empty ds τ → τ.RedBlack pred) ↔
      ∀ c ∈ cs, c.inserts = false :=
  throughout_iff _ (fun _ => redBlack_fresh) (fun _ _ _ => not_redBlack_insert) hr

theorem redBlack_iff_eight : ∃ σ : Session Nat,
    Execution (step (fun a b => decide (a < b)) 0) Allowed empty [.newNode 8 5] σ ∧
      ∀ ds τ, ds <+: [.newNode 8 5] → Execution (step (fun a b => decide (a < b)) 0) Allowed empty ds τ →
        τ.RedBlack fun a b => decide (a < b) :=
  ⟨_, run_newNode_eight 5, (redBlack_iff (run_newNode_eight 5)).mpr (by simp [Operation.inserts])⟩

/-- After the first insertion the root has a left child at the address 1. -/
theorem redBlack_fails : ∃ σ : Session Nat,
    Execution (step (fun a b => decide (a < b)) 0) Allowed empty [.newNode 8 5, .insertUnique 8] σ ∧
      (∃ x, σ.mem σ.tree.root = some x ∧ x.left = 1) ∧ ¬ σ.RedBlack fun a b => decide (a < b) := by
  have hr : Execution (step (fun a b => decide (a < b)) 0) Allowed empty [.newNode 8 5] _ := run_newNode_eight 5
  have hs : step (fun a b => decide (a < b)) 0 _ (.insertUnique 8) = _ := step_insert_eight 5
  refine ⟨_, run_insert_eight 5, ⟨⟨1, 0, 0, 5⟩, by simp, rfl⟩, ?_⟩
  exact not_redBlack_insert (fresh_run hr (by simp [Operation.inserts])) rfl hs

/-- The size, minimum and maximum are right after every operation exactly in the runs that
insert nothing. -/
theorem cachesRight_iff (hr : Execution (step pred fuel) Allowed empty cs σ) :
    (∀ ds τ, ds <+: cs → Execution (step pred fuel) Allowed empty ds τ → τ.CachesRight) ↔
      ∀ c ∈ cs, c.inserts = false :=
  throughout_iff _ (fun _ => cachesRight_fresh) (fun _ _ _ => not_cachesRight_insert) hr

theorem cachesRight_iff_eight : ∃ σ : Session Nat,
    Execution (step (fun a b => decide (a < b)) 0) Allowed empty [.newNode 8 5] σ ∧
      ∀ ds τ, ds <+: [.newNode 8 5] → Execution (step (fun a b => decide (a < b)) 0) Allowed empty ds τ →
        τ.CachesRight :=
  ⟨_, run_newNode_eight 5, (cachesRight_iff (run_newNode_eight 5)).mpr (by simp [Operation.inserts])⟩

/-- After the first insertion there is one node, and the size is 0. -/
theorem cachesRight_fails : ∃ σ : Session Nat,
    Execution (step (fun a b => decide (a < b)) 0) Allowed empty [.newNode 8 5, .insertUnique 8] σ ∧
      Represents (· &&& ptrMask) σ.mem 0 σ.tree.root (.node 8 5 false .leaf .leaf) ∧ σ.tree.size = 0 ∧
        ¬ σ.CachesRight := by
  have hr : Execution (step (fun a b => decide (a < b)) 0) Allowed empty [.newNode 8 5] _ := run_newNode_eight 5
  have hs : step (fun a b => decide (a < b)) 0 _ (.insertUnique 8) = _ := step_insert_eight 5
  refine ⟨_, run_insert_eight 5, ⟨rfl, by decide, ⟨1, 0, 0, 5⟩, by simp, rfl, rfl, rfl, rfl, rfl⟩, rfl, ?_⟩
  exact not_cachesRight_insert (fresh_run hr (by simp [Operation.inserts])) rfl hs

end Session

end XviOs.RBTree
