import XviOs.Deflate.HuffmanComplete

namespace XviOs.Deflate.HuffmanTree

open Library.CanonicalCode

/-- The canonical code of each symbol leads to its leaf, a symbol without a code is on no path,
and the nodes fit in the array. -/
structure Decodes (t : HuffmanTree) (lengths : List Nat) : Prop where
  symbol : ∀ i < symbolCount, lengths.getD i 0 ≠ 0 →
    ∃ n, t.lookup (codeword lengths i) = some n ∧ (t.nodes n).value = i ∧ ∀ b, t.child n b = none
  noSymbol : ∀ i < symbolCount, lengths.getD i 0 = 0 → ∀ p n, t.lookup p = some n → (t.nodes n).value ≠ i
  usedNodes : t.usedNodes ≤ maxNodes

/-- The lengths as numbers. -/
def lengthsOf (symbolLengths : Vector UInt8 symbolCount) : List Nat := symbolLengths.toList.map UInt8.toNat

/-- What the loop that inserts the interior nodes gets. -/
def symbolsOf (lengths : List Nat) : Symbols :=
  lengths.zip (values lengths (initialCode (lengthCount lengths)))

variable {lengths : List Nat} {cs : Symbols} {label : Nat → List Bool} {k n i : Nat} {t : HuffmanTree}
  {b : Bool} {p : List Bool}

theorem buildTree_eq {symbolLengths : Vector UInt8 symbolCount} (hmax : ∀ l ∈ lengthsOf symbolLengths, l ≤ maxBitLength) :
    t.buildTree symbolLengths = insertSymbols 0 (symbolsOf (lengthsOf symbolLengths)) t.insertTerminals := by
  rw [buildTree]
  apply if_neg
  rintro ⟨l, hl, hgt⟩
  exact Nat.not_le_of_gt hgt (hmax l hl)

theorem length_lengthsOf (symbolLengths : Vector UInt8 symbolCount) : (lengthsOf symbolLengths).length = symbolCount := by
  rw [lengthsOf, List.length_map, Vector.length_toList]

theorem length_symbolsOf (lengths : List Nat) : (symbolsOf lengths).length = lengths.length := by
  rw [symbolsOf, List.length_zip, length_values, Nat.min_self]

theorem symbolsOf_getD (hi : i < lengths.length) :
    (symbolsOf lengths).getD i (0, 0) =
      (lengths.getD i 0, (values lengths (initialCode (lengthCount lengths))).getD i 0) := by
  have hv : i < (values lengths (initialCode (lengthCount lengths))).length := by rwa [length_values]
  rw [List.getD_eq_getElem _ _ hi, List.getD_eq_getElem _ _ hv,
    List.getD_eq_getElem _ _ ((length_symbolsOf lengths).symm ▸ hi)]
  exact List.getElem_zip

theorem lenOf_symbolsOf (hi : i < lengths.length) : lenOf (symbolsOf lengths) i = lengths.getD i 0 := by
  rw [lenOf, symbolsOf_getD hi]

theorem wordOf_symbolsOf (hi : i < lengths.length) : wordOf (symbolsOf lengths) i = assignedWord lengths i := by
  rw [wordOf, codeOf, lenOf, symbolsOf_getD hi, assignedWord]

/-- The codes come out canonical where no code has the longest length, or every code does. -/
theorem canonical_symbolsOf (hlength : lengths.length = symbolCount) (hmax : ∀ l ∈ lengths, l ≤ maxBitLength)
    (hkraft : kraftSum lengths maxBitLength ≤ 2 ^ maxBitLength)
    (hgood : (∀ l ∈ lengths, l ≠ maxBitLength) ∨ (∀ l ∈ lengths, l = 0 ∨ l = maxBitLength)) :
    Canonical (symbolsOf lengths) lengths where
  length := hlength
  symbols := by rw [length_symbolsOf, hlength]
  max := hmax
  kraft := hkraft
  lenOf i hi := lenOf_symbolsOf (hlength ▸ hi)
  wordOf i hi h0 := by
    rw [← hlength] at hi
    have hmem : lengths.getD i 0 ∈ lengths := by
      rw [List.getD_eq_getElem _ _ hi]
      exact List.getElem_mem hi
    rw [wordOf_symbolsOf hi]
    by_cases h15 : lengths.getD i 0 = maxBitLength
    · have hall : ∀ l ∈ lengths, l = 0 ∨ l = maxBitLength :=
        hgood.resolve_left fun hnone => hnone _ hmem h15
      rw [assignedWord_longest hi h15, codeword, code, h15, firstCode_longest_eq_zero hall, Nat.zero_add]
    · exact assignedWord_short hi h0 (lt_of_le_of_ne (hmax _ hmem) h15)

/-- Below a leaf there is nothing. -/
theorem Complete.leaf_child (h : Complete cs label symbolCount t) (hcs : Canonical cs lengths) (hi : i < symbolCount)
    (hi0 : lenOf cs i ≠ 0) : t.child (i + 1) b = none := by
  have hused := h.used
  cases hc : t.child (i + 1) b with
  | none => rfl
  | some c =>
      obtain ⟨hcu, hlabel⟩ := h.child (i + 1) (by omega) b c hc
      rw [h.leaf i hi] at hlabel
      have hpre : wordOf cs i <+: label c := hlabel ▸ List.prefix_append _ _
      by_cases hleaf : c ≤ symbolCount
      · obtain ⟨j, hj, rfl, hj0⟩ := h.target (i + 1) (by omega) b c hc hleaf
        rw [h.leaf j hj] at hpre hlabel
        obtain rfl := hcs.prefix_free hi hj hi0 hj0 hpre
        have := congrArg List.length hlabel
        rw [List.length_append, List.length_singleton] at this
        omega
      · exact absurd (h.inner c (not_le.mp hleaf) hcu) (hcs.not_isInner hi hi0 hpre)

/-- A path ends at an inner node, or at the leaf of a symbol that has a code. -/
theorem Labelled.lookup_cases (h : Labelled cs label k t) (hk : k ≤ symbolCount) (hw : t.lookup p = some n) :
    label n = p ∧ ((t.nodes n).value = invalidSymbol ∨
      ∃ i < k, n = i + 1 ∧ lenOf cs i ≠ 0 ∧ (t.nodes n).value = i) := by
  have hused := h.used
  have hroot : 0 < t.usedNodes := by omega
  obtain ⟨hn, hlabel⟩ := h.walk hroot hw
  rw [h.root, List.nil_append] at hlabel
  refine ⟨hlabel, ?_⟩
  by_cases hleaf : n = 0 ∨ symbolCount < n
  · exact .inl (h.innerValue n hn hleaf)
  · rcases List.eq_nil_or_concat p with rfl | ⟨q, b, rfl⟩
    · have : n = 0 := (Option.some.inj hw).symm
      omega
    · rw [List.concat_eq_append] at hw
      obtain ⟨c, hc, hcn⟩ := Library.Trie.exists_of_walk_snoc hw
      obtain ⟨i, hi, rfl, hi0⟩ := h.target c (h.walk hroot hc).1 b n hcn (by omega)
      exact .inr ⟨i, hi, rfl, hi0, h.leafValue i (by omega)⟩

theorem Complete.decodes (h : Complete cs label symbolCount t) (hcs : Canonical cs lengths) : t.Decodes lengths where
  symbol i hi h0 := by
    have hi0 : lenOf cs i ≠ 0 := (hcs.lenOf i hi).symm ▸ h0
    have hreach := h.reach i hi hi0
    rw [hcs.wordOf i hi h0] at hreach
    exact ⟨i + 1, hreach, h.leafValue i hi, fun b => h.leaf_child hcs hi hi0⟩
  noSymbol i hi h0 p n hw := by
    obtain ⟨-, hvalue | ⟨j, hj, -, hj0, hvalue⟩⟩ := h.lookup_cases (Nat.le_refl _) hw
    · rw [hvalue]
      have hlt : symbolCount < invalidSymbol := by decide
      omega
    · rw [hvalue]
      rintro rfl
      rw [hcs.lenOf j hi] at hj0
      exact hj0 h0
  usedNodes := h.usedLe

theorem insertSymbols_decodes (hcs : Canonical cs lengths) (t : HuffmanTree) :
    ∃ t', insertSymbols 0 cs t.insertTerminals = .ok t' ∧ t'.Decodes lengths := by
  obtain ⟨t', label, ht, h⟩ := insertSymbols_complete (List.drop_zero) hcs (Nat.zero_le _) (complete_terminals t)
  exact ⟨t', ht, h.decodes hcs⟩

/-- The first symbol of the longest length. -/
theorem exists_rank_zero {l : Nat} (hl : l ∈ lengths) :
    ∃ i < lengths.length, lengths.getD i 0 = l ∧ rank lengths i = 0 := by
  obtain ⟨before, after, rfl, hbefore⟩ := List.eq_append_cons_of_mem hl
  have hget : (before ++ l :: after).getD before.length 0 = l := by
    rw [List.getD_append_right _ _ _ _ (Nat.le_refl _), Nat.sub_self]
    rfl
  refine ⟨before.length, by simp, hget, ?_⟩
  rw [rank, hget, List.take_left, List.count_eq_zero]
  exact hbefore

/-- Where a code of the longest length stands beside a shorter one, the tree has the first of
the longest ones at the wrong place. -/
theorem not_decodes_of_labelled (h : Labelled (symbolsOf lengths) label symbolCount t)
    (hlength : lengths.length = symbolCount) (hmax : ∀ l ∈ lengths, l ≤ maxBitLength)
    (hkraft : kraftSum lengths maxBitLength ≤ 2 ^ maxBitLength) (hlong : maxBitLength ∈ lengths)
    {l : Nat} (hl : l ∈ lengths) (h0 : l ≠ 0) (h15 : l < maxBitLength) : ¬ t.Decodes lengths := by
  intro hdec
  obtain ⟨i, hi, hget, hrank⟩ := exists_rank_zero hlong
  have hi0 : lengths.getD i 0 ≠ 0 := by
    rw [hget]
    decide
  rw [hlength] at hi
  obtain ⟨n, hn, hvalue, -⟩ := hdec.symbol i hi hi0
  obtain ⟨hlabel, hinv | ⟨j, hj, rfl, -, hj'⟩⟩ := h.lookup_cases (Nat.le_refl _) hn
  · rw [hinv] at hvalue
    have hlt : symbolCount < invalidSymbol := by decide
    omega
  · obtain rfl : j = i := by omega
    rw [← hlength] at hi
    rw [h.leaf j hj, wordOf_symbolsOf hi, assignedWord_longest hi hget, codeword, hget, hrank] at hlabel
    have hlt := code_lt hmax hkraft hi hi0
    rw [hget] at hlt
    have hcode := bitsOf_injective (Nat.two_pow_pos _) hlt hlabel
    have hfirst := firstCode_longest_pos hl h0 h15
    rw [code, hget, hrank] at hcode
    omega

theorem not_decodes_of_longest (hlength : lengths.length = symbolCount) (hmax : ∀ l ∈ lengths, l ≤ maxBitLength)
    (hkraft : kraftSum lengths maxBitLength ≤ 2 ^ maxBitLength) (hlong : maxBitLength ∈ lengths)
    {l : Nat} (hl : l ∈ lengths) (h0 : l ≠ 0) (h15 : l < maxBitLength) {t₀ : HuffmanTree}
    (ht : insertSymbols 0 (symbolsOf lengths) t₀.insertTerminals = .ok t) : ¬ t.Decodes lengths := by
  obtain ⟨label, h⟩ := insertSymbols_labelled List.drop_zero (by rw [length_symbolsOf, hlength]) (Nat.zero_le _)
    (labelled_terminals t₀) ht
  exact not_decodes_of_labelled h hlength hmax hkraft hlong hl h0 h15

/-- The tree is built for the canonical code exactly where no code has the longest length or
every code does. -/
theorem buildTree_decodes_iff (t : HuffmanTree) (symbolLengths : Vector UInt8 symbolCount)
    (hmax : ∀ l ∈ lengthsOf symbolLengths, l ≤ maxBitLength)
    (hkraft : kraftSum (lengthsOf symbolLengths) maxBitLength ≤ 2 ^ maxBitLength) :
    (∃ t', t.buildTree symbolLengths = .ok t' ∧ t'.Decodes (lengthsOf symbolLengths)) ↔
      (∀ l ∈ lengthsOf symbolLengths, l ≠ maxBitLength) ∨
        (∀ l ∈ lengthsOf symbolLengths, l = 0 ∨ l = maxBitLength) := by
  have hlength := length_lengthsOf symbolLengths
  rw [buildTree_eq hmax]
  constructor
  · rintro ⟨t', ht, hdec⟩
    by_contra hbad
    push Not at hbad
    obtain ⟨⟨l, hl, rfl⟩, l', hl', h0, h15⟩ := hbad
    exact not_decodes_of_longest hlength hmax hkraft hl hl' h0 (lt_of_le_of_ne (hmax l' hl') h15) ht hdec
  · intro hgood
    exact insertSymbols_decodes (canonical_symbolsOf hlength hmax hkraft hgood) t

/-- The symbols 0 and 1 with codes of the lengths `a` and `b`. -/
def twoLengths (a b : UInt8) : Vector UInt8 symbolCount :=
  ⟨(a :: b :: List.replicate (symbolCount - 2) 0).toArray, by
    rw [List.size_toArray, List.length_cons, List.length_cons, List.length_replicate]
    decide⟩

theorem lengthsOf_twoLengths (a b : UInt8) :
    lengthsOf (twoLengths a b) = a.toNat :: b.toNat :: List.replicate (symbolCount - 2) 0 := by
  have hlist : (twoLengths a b).toList = a :: b :: List.replicate (symbolCount - 2) 0 := rfl
  rw [lengthsOf, hlist, List.map_cons, List.map_cons, List.map_replicate]
  congr 3

theorem twoLengths_le {a b : UInt8} (ha : a.toNat ≤ maxBitLength) (hb : b.toNat ≤ maxBitLength) :
    ∀ l ∈ lengthsOf (twoLengths a b), l ≤ maxBitLength := by
  intro l hl
  rw [lengthsOf_twoLengths, List.mem_cons, List.mem_cons, List.mem_replicate] at hl
  rcases hl with rfl | rfl | ⟨-, rfl⟩
  · exact ha
  · exact hb
  · exact Nat.zero_le _

theorem kraftSum_twoLengths (a b : UInt8) :
    kraftSum (lengthsOf (twoLengths a b)) maxBitLength =
      (if a.toNat = 0 then 0 else 2 ^ (maxBitLength - a.toNat)) +
        (if b.toNat = 0 then 0 else 2 ^ (maxBitLength - b.toNat)) := by
  rw [lengthsOf_twoLengths, kraftSum, List.map_cons, List.map_cons, List.map_replicate, List.sum_cons, List.sum_cons,
    List.sum_replicate, if_pos rfl, smul_zero, Nat.add_zero]

theorem buildTree_decodes_iff_twoLengths :
    (∃ t', ({} : HuffmanTree).buildTree (twoLengths 1 2) = .ok t' ∧ t'.Decodes (lengthsOf (twoLengths 1 2))) ↔
      (∀ l ∈ lengthsOf (twoLengths 1 2), l ≠ maxBitLength) ∨
        (∀ l ∈ lengthsOf (twoLengths 1 2), l = 0 ∨ l = maxBitLength) :=
  buildTree_decodes_iff {} (twoLengths 1 2) (twoLengths_le (by decide) (by decide))
    (by rw [kraftSum_twoLengths]; decide)

/-- With codes of 1 and 15 bits the longer one is put at the code of fifteen zeros. -/
theorem buildTree_not_canonical :
    ∃ symbolLengths : Vector UInt8 symbolCount,
      (∀ l ∈ lengthsOf symbolLengths, l ≤ maxBitLength) ∧
        kraftSum (lengthsOf symbolLengths) maxBitLength ≤ 2 ^ maxBitLength ∧
        (∃ l ∈ lengthsOf symbolLengths, l ≠ 0) ∧
        ∀ t t' : HuffmanTree, t.buildTree symbolLengths = .ok t' → ¬ t'.Decodes (lengthsOf symbolLengths) := by
  have hmax := twoLengths_le (a := 1) (b := 15) (by decide) (by decide)
  have hkraft : kraftSum (lengthsOf (twoLengths 1 15)) maxBitLength ≤ 2 ^ maxBitLength := by
    rw [kraftSum_twoLengths]
    decide
  have hone : 1 ∈ lengthsOf (twoLengths 1 15) := by
    rw [lengthsOf_twoLengths]
    exact List.mem_cons_self
  have hlong : maxBitLength ∈ lengthsOf (twoLengths 1 15) := by
    rw [lengthsOf_twoLengths]
    exact List.mem_cons_of_mem _ List.mem_cons_self
  refine ⟨twoLengths 1 15, hmax, hkraft, ⟨1, hone, Nat.one_ne_zero⟩, ?_⟩
  intro t t' ht
  rw [buildTree_eq hmax] at ht
  exact not_decodes_of_longest (length_lengthsOf _) hmax hkraft hlong hone Nat.one_ne_zero (by decide) ht

end XviOs.Deflate.HuffmanTree
