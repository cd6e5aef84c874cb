import XviOs.Deflate.HuffmanCodes

namespace XviOs.Deflate.HuffmanTree

open Library.CanonicalCode Library.Trie

section Updates

variable {t t' : HuffmanTree} {n m c u : Nat} {b d : Bool}

theorem child_setChild (hc : c ≠ n) :
    (t.setChild n c b).child m d = if m = n ∧ d = b then some c else t.child m d := by
  have hne : ((c : Int) - n) ≠ 0 := by omega
  rw [child, child, setChild]
  by_cases hm : m = n
  · subst hm
    cases b <;> cases d <;> simp [hne]
  · simp [hm]

theorem value_setChild : ((t.setChild n c b).nodes m).value = (t.nodes m).value := by
  rw [setChild]
  by_cases hm : m = n
  · subst hm
    cases b <;> simp
  · simp [Function.update_of_ne hm]

theorem usedNodes_setChild : (t.setChild n c b).usedNodes = t.usedNodes := rfl

/-- The tree with a new node below `n`. -/
def extend (t : HuffmanTree) (n : Nat) (b : Bool) : HuffmanTree :=
  setChild ⟨Function.update t.nodes t.usedNodes {}, t.usedNodes + 1⟩ n t.usedNodes b

theorem child_extend (hn : n < t.usedNodes) :
    (t.extend n b).child m d =
      if m = n ∧ d = b then some t.usedNodes else if m = t.usedNodes then none else t.child m d := by
  rw [extend, child_setChild (Nat.ne_of_gt hn)]
  congr 1
  rw [child, child]
  by_cases hm : m = t.usedNodes
  · subst hm
    cases d <;> simp
  · simp [hm]

theorem value_extend :
    ((t.extend n b).nodes m).value = if m = t.usedNodes then invalidSymbol else (t.nodes m).value := by
  rw [extend, value_setChild]
  by_cases hm : m = t.usedNodes
  · subst hm
    simp
  · simp [hm]

theorem usedNodes_extend : (t.extend n b).usedNodes = t.usedNodes + 1 := rfl

end Updates

/-- The symbols with their lengths and codes. -/
abbrev Symbols := List (Nat × BitVec 16)

variable {cs : Symbols}

def lenOf (cs : Symbols) (i : Nat) : Nat := (cs.getD i (0, 0)).1

def codeOf (cs : Symbols) (i : Nat) : BitVec 16 := (cs.getD i (0, 0)).2

def wordOf (cs : Symbols) (i : Nat) : List Bool := bitsOf (codeOf cs i).toNat (lenOf cs i)

/-- Each node stands for a word: a leaf for the one of its symbol, and a child for that of
its parent with one bit more. The first `k` symbols may have been inserted. -/
structure Labelled (cs : Symbols) (label : Nat → List Bool) (k : Nat) (t : HuffmanTree) : Prop where
  used : symbolCount < t.usedNodes
  usedLe : t.usedNodes ≤ maxNodes
  root : label 0 = []
  leaf : ∀ i < symbolCount, label (i + 1) = wordOf cs i
  child : ∀ n < t.usedNodes, ∀ b c, t.child n b = some c → c < t.usedNodes ∧ label c = label n ++ [b]
  target : ∀ n < t.usedNodes, ∀ b c, t.child n b = some c → c ≤ symbolCount → ∃ i < k, c = i + 1 ∧ lenOf cs i ≠ 0
  leafValue : ∀ i < symbolCount, (t.nodes (i + 1)).value = i
  innerValue : ∀ n < t.usedNodes, n = 0 ∨ symbolCount < n → (t.nodes n).value = invalidSymbol

variable {label : Nat → List Bool} {k n m i r : Nat} {t t' : HuffmanTree} {b : Bool} {p : List Bool}

theorem Labelled.walk (h : Labelled cs label k t) (hn : n < t.usedNodes) (hw : Library.Trie.walk t.child n p = some m) :
    m < t.usedNodes ∧ label m = label n ++ p :=
  label_walk h.child hn hw

theorem Labelled.extend (h : Labelled cs label k t) (hn : n < t.usedNodes) (hroom : t.usedNodes < maxNodes) :
    Labelled cs (Function.update label t.usedNodes (label n ++ [b])) k (t.extend n b) := by
  have hold : ∀ x, x < t.usedNodes → Function.update label t.usedNodes (label n ++ [b]) x = label x :=
    fun x hx => Function.update_of_ne (Nat.ne_of_lt hx) _ _
  have hused := h.used
  constructor
  · rw [usedNodes_extend]
    omega
  · rw [usedNodes_extend]
    omega
  · rw [hold 0 (by omega), h.root]
  · intro i hi
    rw [hold (i + 1) (by omega), h.leaf i hi]
  · intro x hx d c hc
    rw [usedNodes_extend] at hx ⊢
    rw [child_extend hn] at hc
    split at hc
    · rename_i hxd
      obtain ⟨rfl, rfl⟩ := hxd
      obtain rfl := Option.some.inj hc
      rw [Function.update_self, hold x hn]
      exact ⟨Nat.lt_succ_self _, rfl⟩
    · split at hc
      · cases hc
      · have hx' : x < t.usedNodes := by omega
        obtain ⟨hcu, hlabel⟩ := h.child x hx' d c hc
        rw [hold x hx', hold c hcu]
        exact ⟨by omega, hlabel⟩
  · intro x hx d c hc hcs
    rw [usedNodes_extend] at hx
    rw [child_extend hn] at hc
    split at hc
    · obtain rfl := Option.some.inj hc
      omega
    · split at hc
      · cases hc
      · exact h.target x (by omega) d c hc hcs
  · intro i hi
    rw [value_extend, if_neg (by omega), h.leafValue i hi]
  · intro x hx hinner
    rw [usedNodes_extend] at hx
    rw [value_extend]
    split
    · rfl
    · exact h.innerValue x (by omega) hinner

/-- The symbol `i` gets its leaf below `n`. -/
theorem Labelled.setLeaf (h : Labelled cs label k t) (hn : n < t.usedNodes) (hi : i < symbolCount) (h0 : lenOf cs i ≠ 0)
    (hword : wordOf cs i = label n ++ [b]) (hik : i < m) (hkm : k ≤ m) :
    Labelled cs label m (t.setChild n (i + 1) b) := by
  have hused := h.used
  have hne : i + 1 ≠ n := by
    rintro rfl
    have := congrArg List.length (h.leaf i hi)
    rw [hword, List.length_append, List.length_singleton] at this
    omega
  constructor
  · exact h.used
  · exact h.usedLe
  · exact h.root
  · exact h.leaf
  · intro x hx d c hc
    rw [child_setChild hne] at hc
    split at hc
    · rename_i hxd
      obtain ⟨rfl, rfl⟩ := hxd
      obtain rfl := Option.some.inj hc
      rw [usedNodes_setChild, h.leaf i hi]
      exact ⟨by omega, hword⟩
    · exact h.child x hx d c hc
  · intro x hx d c hc hcs
    rw [child_setChild hne] at hc
    split at hc
    · obtain rfl := Option.some.inj hc
      exact ⟨i, hik, rfl, h0⟩
    · obtain ⟨j, hj, hcj, hj0⟩ := h.target x hx d c hc hcs
      exact ⟨j, by omega, hcj, hj0⟩
  · intro j hj
    rw [value_setChild, h.leafValue j hj]
  · intro x hx hinner
    rw [value_setChild]
    exact h.innerValue x hx hinner

theorem Labelled.mono (h : Labelled cs label k t) (hkm : k ≤ m) : Labelled cs label m t := by
  refine { h with target := fun x hx d c hc hcs => ?_ }
  obtain ⟨j, hj, hcj⟩ := h.target x hx d c hc hcs
  exact ⟨j, hj.trans_le hkm, hcj⟩

/-- The bits of a code from bit `r` down to bit 1. -/
def midBits (code : BitVec 16) : Nat → List Bool
  | 0 => []
  | r + 1 => code.getLsbD (r + 1) :: midBits code r

theorem bitsOf_eq_midBits (code : BitVec 16) (r : Nat) :
    bitsOf code.toNat (r + 1) = midBits code r ++ [code.getLsbD 0] := by
  induction r with
  | zero => rfl
  | succ r ih => rw [bitsOf, ih, midBits, BitVec.testBit_toNat, List.cons_append]

section Descend

variable {code : BitVec 16} {c : Nat}

theorem descend_some (hc : t.child n (code.getLsbD (r + 1)) = some c) :
    descend code (r + 1) n t = descend code r c t := by
  rw [descend, hc]

theorem descend_none (hc : t.child n (code.getLsbD (r + 1)) = none) (hroom : t.usedNodes < maxNodes) :
    descend code (r + 1) n t = descend code r t.usedNodes (t.extend n (code.getLsbD (r + 1))) := by
  rw [descend, hc]
  dsimp only
  rw [newNode, if_pos hroom]
  rfl

theorem descend_full (hc : t.child n (code.getLsbD (r + 1)) = none) (hroom : ¬ t.usedNodes < maxNodes) :
    descend code (r + 1) n t = .error .outOfBounds := by
  rw [descend, hc]
  dsimp only
  rw [newNode, if_neg hroom]
  rfl

theorem descend_labelled (h : Labelled cs label k t) (hn : n < t.usedNodes) (hd : descend code r n t = .ok (m, t')) :
    ∃ label', Labelled cs label' k t' ∧ m < t'.usedNodes ∧ label' m = label n ++ midBits code r := by
  induction r generalizing label n t with
  | zero =>
      obtain ⟨rfl, rfl⟩ := Prod.mk.inj (Except.ok.inj hd)
      exact ⟨label, h, hn, (List.append_nil _).symm⟩
  | succ r ih =>
      cases hc : t.child n (code.getLsbD (r + 1)) with
      | some c =>
          rw [descend_some hc] at hd
          obtain ⟨hcu, hlabel⟩ := h.child n hn _ c hc
          obtain ⟨label', h', hm, hw⟩ := ih h hcu hd
          exact ⟨label', h', hm, by rw [hw, hlabel, midBits, List.append_assoc, List.singleton_append]⟩
      | none =>
          by_cases hroom : t.usedNodes < maxNodes
          · rw [descend_none hc hroom] at hd
            obtain ⟨label', h', hm, hw⟩ := ih (h.extend hn hroom) (by rw [usedNodes_extend]; omega) hd
            rw [Function.update_self] at hw
            exact ⟨label', h', hm, by rw [hw, midBits, List.append_assoc, List.singleton_append]⟩
          · rw [descend_full hc hroom] at hd
            cases hd

end Descend

theorem insertSymbol_zero {code : BitVec 16} : t.insertSymbol i 0 code = .ok t := rfl

theorem insertSymbol_succ {code : BitVec 16} {l : Nat} (hd : descend code l 0 t = .ok (m, t')) :
    t.insertSymbol i (l + 1) code = .ok (t'.setChild m (i + 1) (code.getLsbD 0)) := by
  rw [insertSymbol, if_neg (Nat.succ_ne_zero l), Nat.add_sub_cancel, hd]
  rfl

theorem insertSymbol_labelled (h : Labelled cs label i t) (hi : i < symbolCount)
    (hs : t.insertSymbol i (lenOf cs i) (codeOf cs i) = .ok t') : ∃ label', Labelled cs label' (i + 1) t' := by
  have hused := h.used
  cases hl : lenOf cs i with
  | zero =>
      rw [hl, insertSymbol_zero] at hs
      obtain rfl := Except.ok.inj hs
      exact ⟨label, h.mono (Nat.le_succ i)⟩
  | succ l =>
      rw [hl] at hs
      cases hd : descend (codeOf cs i) l 0 t with
      | error e =>
          rw [insertSymbol, if_neg (Nat.succ_ne_zero l), Nat.add_sub_cancel, hd] at hs
          cases hs
      | ok r =>
          obtain ⟨m, t₁⟩ := r
          rw [insertSymbol_succ hd] at hs
          obtain rfl := Except.ok.inj hs
          obtain ⟨label', h', hm, hw⟩ := descend_labelled h (by omega) hd
          rw [h.root, List.nil_append] at hw
          refine ⟨label', h'.setLeaf hm hi (by rw [hl]; exact Nat.succ_ne_zero l) ?_ (Nat.lt_succ_self i) (Nat.le_succ i)⟩
          rw [wordOf, hl, bitsOf_eq_midBits, hw]

theorem drop_cons {c : Nat × BitVec 16} {rest : Symbols} (hcs : cs.drop i = c :: rest) :
    i < cs.length ∧ c = (lenOf cs i, codeOf cs i) ∧ cs.drop (i + 1) = rest := by
  have hi : i < cs.length := by
    by_contra hge
    rw [List.drop_eq_nil_of_le (not_lt.mp hge)] at hcs
    cases hcs
  rw [List.drop_eq_getElem_cons hi] at hcs
  obtain ⟨rfl, rfl⟩ := List.cons.inj hcs
  exact ⟨hi, by rw [lenOf, codeOf, List.getD_eq_getElem _ _ hi], rfl⟩

theorem insertSymbols_cons {l : Nat} {code : BitVec 16} {rest : Symbols} (hs : t.insertSymbol i l code = .ok t') :
    insertSymbols i ((l, code) :: rest) t = insertSymbols (i + 1) rest t' := by
  rw [insertSymbols, hs]
  rfl

theorem insertSymbols_labelled {rest : Symbols} (hcs : cs.drop i = rest) (hlen : cs.length = symbolCount)
    (hi : i ≤ symbolCount) (h : Labelled cs label i t) (hs : insertSymbols i rest t = .ok t') :
    ∃ label', Labelled cs label' symbolCount t' := by
  induction rest generalizing i t label with
  | nil =>
      obtain rfl := Except.ok.inj hs
      exact ⟨label, h.mono hi⟩
  | cons c rest ih =>
      obtain ⟨hlt, rfl, hrest⟩ := drop_cons hcs
      rw [hlen] at hlt
      cases ht : t.insertSymbol i (lenOf cs i) (codeOf cs i) with
      | error e =>
          rw [insertSymbols, ht] at hs
          cases hs
      | ok t₁ =>
          obtain ⟨label', h'⟩ := insertSymbol_labelled h hlt ht
          rw [insertSymbols_cons ht] at hs
          exact ih hrest hlt h' hs

/-- The root and the leaves alone. -/
theorem insertTerminals_spec (t : HuffmanTree) :
    t.insertTerminals.usedNodes = symbolCount + 1 ∧
      (∀ i < symbolCount, (t.insertTerminals.nodes (i + 1)) = { value := i }) ∧ t.insertTerminals.nodes 0 = {} := by
  have hfold : ∀ k, (List.range k).foldl
      (fun (t : HuffmanTree) i => ⟨Function.update t.nodes t.usedNodes { value := i }, t.usedNodes + 1⟩)
        ⟨Function.update t.nodes 0 {}, 1⟩ = (⟨fun x => if x = 0 then {} else if x ≤ k then { value := x - 1 }
          else t.nodes x, k + 1⟩ : HuffmanTree) := by
    intro k
    induction k with
    | zero =>
        simp only [List.range_zero, List.foldl_nil]
        congr 1
        funext x
        by_cases hx : x = 0
        · simp [hx]
        · simp [hx]
    | succ k ih =>
        rw [List.range_succ, List.foldl_append, ih, List.foldl_cons, List.foldl_nil]
        congr 1
        funext x
        by_cases hx : x = k + 1
        · subst hx
          simp
        · by_cases h0 : x = 0
          · simp [h0]
          · by_cases hk : x ≤ k
            · simp [hx, h0, hk, show x ≤ k + 1 by omega]
            · simp [hx, h0, hk, show ¬ x ≤ k + 1 by omega]
  rw [insertTerminals, hfold symbolCount]
  refine ⟨rfl, fun i hi => ?_, rfl⟩
  have hle : i + 1 ≤ symbolCount := hi
  simp [hle]

theorem labelled_terminals (t : HuffmanTree) :
    Labelled cs (fun x => if x = 0 then [] else wordOf cs (x - 1)) 0 t.insertTerminals := by
  obtain ⟨hused, hleaf, hroot⟩ := insertTerminals_spec t
  have hchild : ∀ x < t.insertTerminals.usedNodes, ∀ d, t.insertTerminals.child x d = none := by
    intro x hx d
    rw [hused] at hx
    cases x with
    | zero => rw [child, hroot]; cases d <;> rfl
    | succ x => rw [child, hleaf x (by omega)]; cases d <;> rfl
  constructor
  · omega
  · rw [hused]
    decide
  · rfl
  · intro i _
    rfl
  · intro x hx d c hc
    rw [hchild x hx d] at hc
    cases hc
  · intro x hx d c hc
    rw [hchild x hx d] at hc
    cases hc
  · intro i hi
    rw [hleaf i hi]
  · intro x hx hinner
    obtain rfl : x = 0 := by omega
    rw [hroot]

end XviOs.Deflate.HuffmanTree
