import XviOs.Deflate.HuffmanTree

namespace XviOs.Deflate.HuffmanTree

open Library.CanonicalCode

/-- The words of the symbols are those of a canonical code. -/
structure Canonical (cs : Symbols) (lengths : List Nat) : Prop where
  length : lengths.length = symbolCount
  symbols : cs.length = symbolCount
  max : ∀ l ∈ lengths, l ≤ maxBitLength
  kraft : kraftSum lengths maxBitLength ≤ 2 ^ maxBitLength
  lenOf : ∀ i < symbolCount, lenOf cs i = lengths.getD i 0
  wordOf : ∀ i < symbolCount, lengths.getD i 0 ≠ 0 → wordOf cs i = codeword lengths i

variable {cs : Symbols} {lengths : List Nat} {label : Nat → List Bool} {k n m i j r : Nat} {t t' : HuffmanTree}
  {b : Bool} {p : List Bool}

theorem Canonical.prefix_free (h : Canonical cs lengths) (hi : i < symbolCount) (hj : j < symbolCount)
    (hi0 : HuffmanTree.lenOf cs i ≠ 0) (hj0 : HuffmanTree.lenOf cs j ≠ 0)
    (hpre : HuffmanTree.wordOf cs i <+: HuffmanTree.wordOf cs j) : i = j := by
  rw [h.lenOf i hi] at hi0
  rw [h.lenOf j hj] at hj0
  rw [h.wordOf i hi hi0, h.wordOf j hj hj0] at hpre
  exact codeword_prefix h.max h.kraft (h.length ▸ hi) (h.length ▸ hj) hi0 hj0 hpre

/-- An inner node other than the root stands for a part of the word of some symbol. -/
def IsInner (cs : Symbols) (p : List Bool) : Prop :=
  p ≠ [] ∧ ∃ j < symbolCount, lenOf cs j ≠ 0 ∧ p <+: wordOf cs j ∧ p.length < lenOf cs j

theorem Canonical.mem_innerWords (h : Canonical cs lengths) (hp : IsInner cs p) :
    p ∈ innerWords lengths maxBitLength := by
  obtain ⟨hne, j, hj, hj0, hpre, hlen⟩ := hp
  rw [h.lenOf j hj] at hj0 hlen
  rw [h.wordOf j hj hj0] at hpre
  exact Library.CanonicalCode.mem_innerWords h.max (h.length ▸ hj) hne hpre hlen

/-- A word does not go on below the place of another one. -/
theorem Canonical.not_isInner (h : Canonical cs lengths) (hi : i < symbolCount) (hi0 : HuffmanTree.lenOf cs i ≠ 0)
    (hpre : HuffmanTree.wordOf cs i <+: p) : ¬ IsInner cs p := by
  rintro ⟨-, j, hj, hj0, hp, hlen⟩
  obtain rfl := h.prefix_free hi hj hi0 hj0 (hpre.trans hp)
  have hle := hpre.length_le
  rw [HuffmanTree.wordOf, length_bitsOf] at hle
  omega

/-- All symbols before `k` have their leaves where their words lead, and each inner node is
where its own word leads. -/
structure Complete (cs : Symbols) (label : Nat → List Bool) (k : Nat) (t : HuffmanTree) : Prop
    extends Labelled cs label k t where
  reach : ∀ i < k, lenOf cs i ≠ 0 → t.lookup (wordOf cs i) = some (i + 1)
  innerReach : ∀ x, symbolCount < x → x < t.usedNodes → t.lookup (label x) = some x
  inner : ∀ x, symbolCount < x → x < t.usedNodes → IsInner cs (label x)

theorem Complete.child_reach (h : Complete cs label k t) (hn : n < t.usedNodes) (hw : t.lookup (label n) = some n)
    {c : Nat} (hc : t.child n b = some c) : t.lookup (label c) = some c := by
  rw [(h.child n hn b c hc).2, lookup, Library.Trie.walk_snoc hw, hc]

/-- The inner nodes and one word more. -/
theorem Complete.room (h : Complete cs label k t) (hcs : Canonical cs lengths) (hp : IsInner cs p)
    (hnone : t.lookup p = none) : t.usedNodes < maxNodes := by
  have hmem : insert p ((Finset.Ico (symbolCount + 1) t.usedNodes).image label) ⊆ innerWords lengths maxBitLength := by
    intro w hw
    rcases Finset.mem_insert.mp hw with rfl | hw
    · exact hcs.mem_innerWords hp
    · obtain ⟨x, hx, rfl⟩ := Finset.mem_image.mp hw
      rw [Finset.mem_Ico] at hx
      exact hcs.mem_innerWords (h.inner x hx.1 hx.2)
  have hinj : Set.InjOn label (Finset.Ico (symbolCount + 1) t.usedNodes) := by
    intro x hx y hy hxy
    rw [Finset.coe_Ico, Set.mem_Ico] at hx hy
    have hwx := h.innerReach x hx.1 hx.2
    rw [hxy, h.innerReach y hy.1 hy.2] at hwx
    exact (Option.some.inj hwx).symm
  have hnew : p ∉ (Finset.Ico (symbolCount + 1) t.usedNodes).image label := by
    intro hw
    obtain ⟨x, hx, rfl⟩ := Finset.mem_image.mp hw
    rw [Finset.mem_Ico] at hx
    rw [h.innerReach x hx.1 hx.2] at hnone
    cases hnone
  have hcard := Finset.card_le_card hmem
  rw [Finset.card_insert_of_notMem hnew, Finset.card_image_of_injOn hinj, Nat.card_Ico] at hcard
  have hbound : (innerWords lengths maxBitLength).card + 1 ≤ lengths.length + maxBitLength :=
    card_innerWords_le (by decide)
  rw [hcs.length] at hbound
  have hused := h.used
  rw [maxNodes]
  omega

/-- A new node for the word `label n ++ [b]`. -/
theorem Complete.extend (h : Complete cs label k t) (hcs : Canonical cs lengths) (hn : n < t.usedNodes)
    (hw : t.lookup (label n) = some n) (hc : t.child n b = none) (hp : IsInner cs (label n ++ [b])) :
    t.usedNodes < maxNodes ∧
      Complete cs (Function.update label t.usedNodes (label n ++ [b])) k (t.extend n b) ∧
      (t.extend n b).lookup (label n ++ [b]) = some t.usedNodes := by
  have hnone : t.lookup (label n ++ [b]) = none := by rw [lookup, Library.Trie.walk_snoc hw, hc]
  have hroom := h.room hcs hp hnone
  have hused := h.used
  have hmono : ∀ p m, t.lookup p = some m → (t.extend n b).lookup p = some m := by
    intro p m hpm
    refine Library.Trie.walk_mono (P := (· < t.usedNodes)) (fun x hx d c hd => (h.child x hx d c hd).1) ?_
      (show 0 < t.usedNodes by omega) hpm
    intro x hx d c hd
    have hxd : ¬ (x = n ∧ d = b) := by
      rintro ⟨rfl, rfl⟩
      rw [hc] at hd
      cases hd
    rw [child_extend hn, if_neg hxd, if_neg (Nat.ne_of_lt hx), hd]
  have hnew : (t.extend n b).lookup (label n ++ [b]) = some t.usedNodes := by
    rw [lookup, Library.Trie.walk_snoc (hmono _ _ hw), child_extend hn, if_pos ⟨rfl, rfl⟩]
  refine ⟨hroom, ?_, hnew⟩
  refine { h.toLabelled.extend hn hroom with reach := ?_, innerReach := ?_, inner := ?_ }
  · intro i hi hi0
    exact hmono _ _ (h.reach i hi hi0)
  · intro x hx hxu
    by_cases hxn : x = t.usedNodes
    · subst hxn
      rw [Function.update_self, hnew]
    · rw [usedNodes_extend] at hxu
      rw [Function.update_of_ne hxn]
      exact hmono _ _ (h.innerReach x hx (by omega))
  · intro x hx hxu
    by_cases hxn : x = t.usedNodes
    · subst hxn
      rwa [Function.update_self]
    · rw [usedNodes_extend] at hxu
      rw [Function.update_of_ne hxn]
      exact h.inner x hx (by omega)

theorem descend_complete {code : BitVec 16} {q : List Bool} (h : Complete cs label k t) (hcs : Canonical cs lengths)
    (hk : k < symbolCount) (hk0 : lenOf cs k ≠ 0) (hn : n < t.usedNodes) (hw : t.lookup (label n) = some n)
    (hq : q ≠ []) (hword : wordOf cs k = label n ++ midBits code r ++ q) :
    ∃ m t' label', descend code r n t = .ok (m, t') ∧ Complete cs label' k t' ∧ m < t'.usedNodes ∧
      t'.lookup (label' m) = some m ∧ wordOf cs k = label' m ++ q := by
  induction r generalizing label n t with
  | zero => exact ⟨n, t, label, rfl, h, hn, hw, by rw [hword, midBits, List.append_nil]⟩
  | succ r ih =>
      have hnext : wordOf cs k = label n ++ [code.getLsbD (r + 1)] ++ midBits code r ++ q := by
        rw [hword, midBits]
        simp
      cases hc : t.child n (code.getLsbD (r + 1)) with
      | some c =>
          rw [descend_some hc]
          obtain ⟨hcu, hlabel⟩ := h.child n hn _ c hc
          exact ih h hcu (h.child_reach hn hw hc) (by rw [hlabel, hnext])
      | none =>
          have hlen := congrArg List.length hnext
          have hqlen := List.length_pos_iff.mpr hq
          simp only [wordOf, length_bitsOf, List.length_append] at hlen
          have hp : IsInner cs (label n ++ [code.getLsbD (r + 1)]) := by
            refine ⟨by simp, k, hk, hk0, ?_, by rw [List.length_append]; omega⟩
            rw [hnext, List.append_assoc _ (midBits code r) q]
            exact List.prefix_append _ _
          obtain ⟨hroom, h', hw'⟩ := h.extend hcs hn hw hc hp
          rw [descend_none hc hroom]
          apply ih h'
          · exact Nat.lt_succ_self _
          · rw [Function.update_self, hw']
          · rw [Function.update_self, hnext]

/-- The place of the next leaf is free. -/
theorem Complete.child_none (h : Complete cs label k t) (hcs : Canonical cs lengths) (hk : k < symbolCount)
    (hk0 : lenOf cs k ≠ 0) (hn : n < t.usedNodes) (hword : wordOf cs k = label n ++ [b]) : t.child n b = none := by
  cases hc : t.child n b with
  | none => rfl
  | some c =>
      obtain ⟨hcu, hlabel⟩ := h.child n hn b c hc
      rw [← hword] at hlabel
      by_cases hleaf : c ≤ symbolCount
      · obtain ⟨i, hi, rfl, hi0⟩ := h.target n hn b c hc hleaf
        rw [h.leaf i (hi.trans hk)] at hlabel
        have := hcs.prefix_free (hi.trans hk) hk hi0 hk0 (hlabel ▸ List.prefix_rfl)
        omega
      · have hinner := h.inner c (not_le.mp hleaf) hcu
        rw [hlabel] at hinner
        exact absurd hinner (hcs.not_isInner hk hk0 List.prefix_rfl)

theorem Complete.setLeaf (h : Complete cs label k t) (hcs : Canonical cs lengths) (hk : k < symbolCount)
    (hk0 : lenOf cs k ≠ 0) (hn : n < t.usedNodes) (hw : t.lookup (label n) = some n)
    (hword : wordOf cs k = label n ++ [b]) : Complete cs label (k + 1) (t.setChild n (k + 1) b) := by
  have hnone := h.child_none hcs hk hk0 hn hword
  have hused := h.used
  have hne : k + 1 ≠ n := by
    rintro rfl
    have := congrArg List.length (h.leaf k hk)
    rw [hword, List.length_append, List.length_singleton] at this
    omega
  have hmono : ∀ p m, t.lookup p = some m → (t.setChild n (k + 1) b).lookup p = some m := by
    intro p m hpm
    refine Library.Trie.walk_mono (P := (· < t.usedNodes)) (fun x hx d c hd => (h.child x hx d c hd).1) ?_
      (show 0 < t.usedNodes by omega) hpm
    intro x _ d c hd
    have hxd : ¬ (x = n ∧ d = b) := by
      rintro ⟨rfl, rfl⟩
      rw [hnone] at hd
      cases hd
    rw [child_setChild hne, if_neg hxd, hd]
  have hleaf := h.toLabelled.setLeaf hn hk hk0 hword (Nat.lt_succ_self k) (Nat.le_succ k)
  refine { hleaf with reach := ?_, innerReach := ?_, inner := h.inner }
  · intro i hi hi0
    rcases Nat.lt_succ_iff_lt_or_eq.mp hi with hi | rfl
    · exact hmono _ _ (h.reach i hi hi0)
    · rw [hword, lookup, Library.Trie.walk_snoc (hmono _ _ hw), child_setChild hne, if_pos ⟨rfl, rfl⟩]
  · intro x hx hxu
    exact hmono _ _ (h.innerReach x hx hxu)

theorem Complete.skip (h : Complete cs label k t) (hk0 : lenOf cs k = 0) : Complete cs label (k + 1) t := by
  refine { h.toLabelled.mono (Nat.le_succ k) with reach := ?_, innerReach := h.innerReach, inner := h.inner }
  intro i hi hi0
  rcases Nat.lt_succ_iff_lt_or_eq.mp hi with hi | rfl
  · exact h.reach i hi hi0
  · exact absurd hk0 hi0

theorem insertSymbol_complete (h : Complete cs label k t) (hcs : Canonical cs lengths) (hk : k < symbolCount) :
    ∃ t' label', t.insertSymbol k (lenOf cs k) (codeOf cs k) = .ok t' ∧ Complete cs label' (k + 1) t' := by
  have hused := h.used
  cases hl : lenOf cs k with
  | zero => exact ⟨t, label, insertSymbol_zero, h.skip hl⟩
  | succ l =>
      have hk0 : lenOf cs k ≠ 0 := by
        rw [hl]
        exact Nat.succ_ne_zero l
      have hword : wordOf cs k = label 0 ++ midBits (codeOf cs k) l ++ [(codeOf cs k).getLsbD 0] := by
        rw [h.root, List.nil_append, wordOf, hl, bitsOf_eq_midBits]
      have hroot : t.lookup (label 0) = some 0 := by
        rw [h.root]
        rfl
      obtain ⟨m, t', label', hd, h', hm, hw, hword'⟩ :=
        descend_complete h hcs hk hk0 (by omega) hroot (List.cons_ne_nil _ []) hword
      exact ⟨_, label', insertSymbol_succ hd, h'.setLeaf hcs hk hk0 hm hw hword'⟩

theorem insertSymbols_complete {rest : Symbols} (hrest : cs.drop k = rest) (hcs : Canonical cs lengths)
    (hk : k ≤ symbolCount) (h : Complete cs label k t) :
    ∃ t' label', insertSymbols k rest t = .ok t' ∧ Complete cs label' symbolCount t' := by
  induction rest generalizing k t label with
  | nil =>
      have hlen := List.drop_eq_nil_iff.mp hrest
      rw [hcs.symbols] at hlen
      obtain rfl := Nat.le_antisymm hk hlen
      exact ⟨t, label, rfl, h⟩
  | cons c rest ih =>
      obtain ⟨hlt, rfl, hrest'⟩ := drop_cons hrest
      rw [hcs.symbols] at hlt
      obtain ⟨t', label', ht, h'⟩ := insertSymbol_complete h hcs hlt
      rw [insertSymbols_cons ht]
      exact ih hrest' hlt h'

theorem complete_terminals (t : HuffmanTree) :
    Complete cs (fun x => if x = 0 then [] else wordOf cs (x - 1)) 0 t.insertTerminals := by
  have hused := (insertTerminals_spec t).1
  refine { labelled_terminals t with reach := ?_, innerReach := ?_, inner := ?_ }
  · intro i hi
    exact absurd hi (Nat.not_lt_zero i)
  · intro x hx hxu
    omega
  · intro x hx hxu
    omega

end XviOs.Deflate.HuffmanTree
