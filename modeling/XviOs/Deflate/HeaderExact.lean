import XviOs.Deflate.HeaderRecovery

namespace XviOs.Deflate

open Library.CanonicalCode

section CodeLengthCode

variable {cls : List Nat}

theorem length_codeLengthCode (cls : List Nat) : (codeLengthCode cls).length = 19 := by
  rw [codeLengthCode, List.length_map, List.length_range]

theorem codeLengthCode_le (h : ∀ l ∈ cls, l < 8) : ∀ l ∈ codeLengthCode cls, l ≤ 7 := by
  intro l hl
  obtain ⟨i, -, rfl⟩ := List.mem_map.mp hl
  by_cases hi : codeLengthOrder.idxOf i < cls.length
  · rw [List.getD_eq_getElem _ _ hi]
    exact Nat.le_of_lt_succ (h _ (List.getElem_mem hi))
  · rw [List.getD_eq_default _ _ (not_lt.mp hi)]
    exact Nat.zero_le _

theorem vectorOf_codeLengthCode_nil : vectorOf (codeLengthCode []) = Vector.replicate symbolCount 0 := by
  ext i hi
  rw [vectorOf, Vector.getElem_ofFn, Vector.getElem_replicate, BlockDecoder.codeLengthCode_getD]
  split <;> rfl

/-- The code length code is always built, since its lengths have three bits. -/
theorem DynamicHeader.Valid.buildTree {h : DynamicHeader} (hv : h.Valid) :
    ∃ t, HuffmanTree.buildTree {} (vectorOf (codeLengthCode h.codeLengths)) = .ok t ∧
      Reads t (codeLengthCode h.codeLengths) := by
  have hle := codeLengthCode_le hv.codeLengths_lt
  apply buildTree_reads
  · rw [length_codeLengthCode]
    decide
  · exact fun x hx => (hle x hx).trans_lt (by decide)
  · have hkraft := kraftSum_add 8 hle
    have h7 := hv.kraft
    rw [show maxBitLength = 7 + 8 from rfl, hkraft, Nat.pow_add]
    exact Nat.mul_le_mul_right _ h7

end CodeLengthCode

namespace BlockDecoder

variable {processData : BlockDecoder → Except DecoderFault (Bool × BlockDecoder)} {d d' : BlockDecoder} {h : DynamicHeader}
  {l vs syms : List Nat} {bits : List Bool} {s : Bitstream} {t : HuffmanTree} {fuel calls i k : Nat}

theorem withCodes_self (hcodes : d.codeLengths = Vector.replicate symbolCount 0) (hread : d.codeLengthsRead = 0) :
    d.withCodes d.input [] = d := by
  rw [withCodes, vectorOf_codeLengthCode_nil, ← hcodes, show ([] : List Nat).length = d.codeLengthsRead from hread.symm]

theorem processCodeLengths_header {cls : List Nat} (hstate : d.state = .codeLengths)
    (hcodes : d.codeLengths = Vector.replicate symbolCount 0) (hread : d.codeLengthsRead = 0)
    (hcount : cls.length = d.codeLengthSymbolCount) (h19 : d.codeLengthSymbolCount ≤ 19) (hne : cls ≠ [])
    (hcls : ∀ v ∈ cls, v < 8) (ha : d.input.Ahead (cls.flatMap (lsbBits · 3) ++ bits)) (hfuel : cls.length ≤ fuel)
    (hbuild : HuffmanTree.buildTree {} (vectorOf (codeLengthCode cls)) = .ok t) :
    d.process processData fuel = .ok (true, withLengths { d with
      codeLengthTree := t, state := .mainTree, built := d.built ++ [vectorOf (codeLengthCode cls)] }
      (d.input.skip (3 * cls.length)) []) := by
  have hlen : 3 ≤ (cls.flatMap (lsbBits · 3) ++ bits).length := by
    obtain ⟨v, cls, rfl⟩ := List.exists_cons_of_ne_nil hne
    rw [List.flatMap_cons, List.length_append, List.length_append, length_lsbBits]
    omega
  obtain ⟨f, rfl⟩ := Nat.exists_eq_add_of_le' hfuel
  rw [process, hstate]
  dsimp only
  rw [processCodeLengths, ha.canReadBits hlen (by decide), stream_ok]
  dsimp only
  rw [if_pos rfl]
  have hrest : readCodeLengths (f + cls.length) (d.withCodes d.input []) = _ :=
    readCodeLengths_rest ha hcls (by rw [List.length_nil]; omega) h19 hne
  rw [withCodes_self hcodes hread, List.nil_append] at hrest
  rw [hrest, finishCodeLengths_ok (d := d.withCodes _ cls) rfl hbuild]
  rfl

theorem length_flatMap_lsbBits (cls : List Nat) : (cls.flatMap (lsbBits · 3)).length = 3 * cls.length := by
  induction cls with
  | nil => rfl
  | cons v cls ih =>
      rw [List.flatMap_cons, List.length_append, length_lsbBits, ih, List.length_cons]
      ring

/-- The stages before the main tree. -/
theorem header_inMain (processData : BlockDecoder → Except DecoderFault (Bool × BlockDecoder)) (hv : h.Valid)
    (hstate : d.state = .initial) (ha : d.input.Ahead h.bits) :
    ∃ t s, Reads t (codeLengthCode h.codeLengths) ∧
      s.Ahead (h.items.flatMap (Item.bits (codeLengthCode h.codeLengths))) ∧
      ∀ fuel calls, h.codeLengths.length ≤ fuel →
        header processData fuel (calls + 3) d = header processData fuel calls ((d.inMain h t).withLengths s []) := by
  obtain ⟨t, hbuild, hreads⟩ := hv.buildTree
  have hlength := hv.length_codeLengths
  have hne : h.codeLengths ≠ [] := by
    rw [← List.length_pos_iff]
    omega
  rw [DynamicHeader.bits] at ha
  have hsplit₁ : d.input.Ahead ((h.final :: lsbBits 2 2) ++ _) := ha
  have ha₁ : (d.input.skip 3).Ahead _ := hsplit₁.skip
  have hskip : ∀ {s : Bitstream} {v n : Nat} {bits : List Bool}, s.Ahead (lsbBits v n ++ bits) → (s.skip n).Ahead bits := by
    intro s v n bits hs
    have := hs.skip
    rwa [length_lsbBits] at this
  have ha₂ := hskip (hskip (hskip ha₁))
  rw [Bitstream.skip_skip, Bitstream.skip_skip] at ha₂
  have ha₃ := ha₂.skip
  rw [length_flatMap_lsbBits] at ha₃
  refine ⟨t, _, hreads, ha₃, fun fuel calls hfuel => ?_⟩
  rw [header_true (by rw [hstate]; decide) (processInitial_header hstate ha)]
  rw [header_true (by dsimp only; decide) (processBlockType_header rfl rfl hv.hlit hv.hdist hv.hclen ha₁)]
  have h19 := hv.hclen
  rw [header_true (by dsimp only; decide) (processCodeLengths_header rfl rfl rfl hlength (by dsimp only; omega) hne
    hv.codeLengths_lt ha₂ hfuel hbuild)]
  rfl

theorem process_tree (hstate : d.InTree) (ha : d.input.Ahead bits) (hne : bits ≠ []) :
    d.process processData fuel = readTree fuel d := by
  have hlen : 1 ≤ bits.length := List.length_pos_iff.mpr hne
  have htree : d.processTree fuel = readTree fuel d := by
    rw [processTree, ha.canReadBits hlen (by decide), stream_ok]
    dsimp only
    rw [if_pos rfl]
  rw [process]
  rcases hstate with hs | hs <;> rw [hs] <;> exact htree

theorem wordsOf_ne_nil (hsyms : ∀ i ∈ syms, i < l.length ∧ l.getD i 0 ≠ 0) (hne : syms ≠ []) : wordsOf l syms ≠ [] := by
  obtain ⟨i, syms, rfl⟩ := List.exists_cons_of_ne_nil hne
  have h0 := (hsyms i List.mem_cons_self).2
  rw [wordsOf, List.flatMap_cons, ← List.length_pos_iff, List.length_append, codeword, length_bitsOf]
  omega

/-- The stage of one tree, where all its lengths are written out. -/
theorem process_all (hstate : d.InTree) (hreads : Reads d.codeLengthTree l) (hl : l.length < invalidSymbol)
    (hsyms : ∀ i ∈ syms, i < l.length ∧ l.getD i 0 ≠ 0) (ha : s.Ahead (wordsOf l syms ++ bits))
    (hlen : syms.length = d.target) (hne : syms ≠ []) (htarget : d.target ≤ symbolCount)
    (hfuel : (wordsOf l syms).length ≤ fuel) :
    (d.withLengths s []).process processData fuel = (d.withLengths (s.skip (wordsOf l syms).length) syms).finishTree := by
  obtain ⟨f, rfl⟩ := Nat.exists_eq_add_of_le' hfuel
  have hbits : wordsOf l syms ++ bits ≠ [] := List.append_ne_nil_of_left_ne_nil (wordsOf_ne_nil hsyms hne) _
  rw [process_tree (d := d.withLengths s []) hstate ha hbits]
  exact readTree_all hreads hl hsyms ha hlen hne htarget

/-- A repeat code before the end of a tree is taken for a length. -/
theorem process_repeat {r : Nat} (hstate : d.InTree) (hreads : Reads d.codeLengthTree l) (hl : l.length < invalidSymbol)
    (hsyms : ∀ i ∈ syms, i < l.length ∧ l.getD i 0 ≠ 0) (hr : r < l.length) (hr0 : l.getD r 0 ≠ 0)
    (h16 : maxBitLength < r) (hr256 : r < 256) (ha : s.Ahead (wordsOf l syms ++ (codeword l r ++ bits)))
    (hlen : syms.length < d.target) (htarget : d.target ≤ symbolCount)
    (hfuel : (wordsOf l syms).length + (codeword l r).length ≤ fuel) :
    StaysPoisoned ((d.withLengths s []).process processData fuel) := by
  obtain ⟨f, rfl⟩ := Nat.exists_eq_add_of_le' hfuel
  have hbits : wordsOf l syms ++ (codeword l r ++ bits) ≠ [] := by
    rw [← List.length_pos_iff, List.length_append, List.length_append, codeword, length_bitsOf]
    omega
  rw [process_tree (d := d.withLengths s []) hstate ha hbits, Nat.add_comm (wordsOf l syms).length, ← Nat.add_assoc,
    readTree_symbols hreads hl hsyms ha (by rw [List.length_nil]; omega) htarget, List.nil_append,
    readTree_symbol hreads hl hr hr0 ha.skip (by omega), next_withLengths]
  have hpoison : Poisoned (d.withLengths ((s.skip (wordsOf l syms).length).skip (codeword l r).length) (syms ++ [r])) := by
    refine ⟨hstate, syms.length, ?_, ?_⟩
    · change syms.length < (syms ++ [r]).length
      rw [List.length_append, List.length_singleton]
      exact Nat.lt_succ_self _
    · change maxBitLength < ((vectorOf (syms ++ [r])).toList.getD syms.length 0).toNat
      rw [toList_getD_vectorOf (by omega), getD_snoc, if_pos rfl, UInt8.toNat_ofNat', Nat.mod_eq_of_lt hr256]
      exact h16
  split
  · rw [hpoison.finishTree]
    trivial
  · exact readTree_poisoned hpoison

theorem header_staysPoisoned (hstate : d.state ≠ .data) (hstay : StaysPoisoned (d.process processData fuel))
    (hh : header processData fuel (calls + 1) d = .ok d') : d'.state ≠ .data := by
  cases hp : d.process processData fuel with
  | error f =>
      rw [header_error hstate hp] at hh
      cases hh
  | ok r =>
      obtain ⟨more, d₁⟩ := r
      rw [hp] at hstay
      cases more with
      | true =>
          rw [header_true hstate hp] at hh
          exact header_poisoned hstay hh
      | false =>
          rw [header, if_neg hstate, hp] at hh
          obtain rfl := Except.ok.inj hh
          exact hstay.1.ne_data

/-- The decoder gets to the data, and the trees it has built are for the lengths of the header. -/
def Recovers (processData : BlockDecoder → Except DecoderFault (Bool × BlockDecoder)) (d : BlockDecoder)
    (h : DynamicHeader) : Prop :=
  ∃ fuel calls d', header processData fuel calls d = .ok d' ∧ d'.state = .data ∧
    d'.built = d.built ++
      [vectorOf (codeLengthCode h.codeLengths), vectorOf h.mainLengths, vectorOf h.distanceLengths]

/-- The tree for these lengths can be built. -/
def Fits (l : List Nat) : Prop := ∃ t, HuffmanTree.buildTree {} (vectorOf l) = .ok t

theorem not_fits (hfits : ¬ Fits l) : ∃ e, HuffmanTree.buildTree {} (vectorOf l) = .error e := by
  cases hb : HuffmanTree.buildTree {} (vectorOf l) with
  | error e => exact ⟨e, rfl⟩
  | ok t => exact absurd ⟨t, hb⟩ hfits

theorem fits_of_kraft (hlen : l.length ≤ symbolCount) (hmax : ∀ x ∈ l, x < maxBitLength)
    (hkraft : kraftSum l maxBitLength ≤ 2 ^ maxBitLength) : Fits l := by
  obtain ⟨t, ht, -⟩ := buildTree_reads hlen hmax hkraft
  exact ⟨t, ht⟩

section Exact

variable {main distance : List Nat}

/-- The symbols of a header that stand in front of some others. -/
def AreSymbols (h : DynamicHeader) (syms : List Nat) : Prop :=
  ∀ i ∈ syms, i < (codeLengthCode h.codeLengths).length ∧ (codeLengthCode h.codeLengths).getD i 0 ≠ 0

theorem length_lt_invalidSymbol (cls : List Nat) : (codeLengthCode cls).length < invalidSymbol := by
  rw [length_codeLengthCode]
  decide

theorem target_inMain_le (hv : h.Valid) : (d.inMain h t).target ≤ symbolCount := by
  have hlit := hv.hlit
  have hcount : symbolCount = 288 := rfl
  change 257 + h.hlit ≤ symbolCount
  omega

theorem target_inDistance_le {t' : HuffmanTree} (hv : h.Valid) :
    ((d.inMain h t).inDistance main t').target ≤ symbolCount := by
  have hdist := hv.hdist
  have hcount : symbolCount = 288 := rfl
  change 1 + h.hdist ≤ symbolCount
  omega

/-- All lengths of the main tree. -/
theorem process_main (processData : BlockDecoder → Except DecoderFault (Bool × BlockDecoder)) (hv : h.Valid)
    (hreads : Reads t (codeLengthCode h.codeLengths)) (hsyms : AreSymbols h main)
    (ha : s.Ahead (wordsOf (codeLengthCode h.codeLengths) main ++ bits)) (hlen : main.length = h.mainCount)
    (hfuel : (wordsOf (codeLengthCode h.codeLengths) main).length ≤ fuel) :
    ((d.inMain h t).withLengths s []).process processData fuel =
      ((d.inMain h t).withLengths (s.skip (wordsOf (codeLengthCode h.codeLengths) main).length) main).finishTree := by
  have hne : main ≠ [] := by
    rw [← List.length_pos_iff, hlen, DynamicHeader.mainCount]
    omega
  exact process_all (d := d.inMain h t) (.inl rfl) hreads (length_lt_invalidSymbol _) hsyms ha hlen hne
    (target_inMain_le hv) hfuel

/-- All lengths of the distance tree. -/
theorem process_distance (processData : BlockDecoder → Except DecoderFault (Bool × BlockDecoder)) {t' : HuffmanTree}
    (hv : h.Valid) (hreads : Reads t (codeLengthCode h.codeLengths)) (hsyms : AreSymbols h distance)
    (ha : s.Ahead (wordsOf (codeLengthCode h.codeLengths) distance ++ bits)) (hlen : distance.length = h.distanceCount)
    (hfuel : (wordsOf (codeLengthCode h.codeLengths) distance).length ≤ fuel) :
    (((d.inMain h t).inDistance main t').withLengths s []).process processData fuel =
      (((d.inMain h t).inDistance main t').withLengths
        (s.skip (wordsOf (codeLengthCode h.codeLengths) distance).length) distance).finishTree := by
  have hne : distance ≠ [] := by
    rw [← List.length_pos_iff, hlen, DynamicHeader.distanceCount]
    omega
  exact process_all (d := (d.inMain h t).inDistance main t') (.inr rfl) hreads (length_lt_invalidSymbol _) hsyms ha hlen
    hne (target_inDistance_le hv) hfuel

theorem inMain_ne_data : ((d.inMain h t).withLengths s vs).state ≠ .data := InTree.ne_data (.inl rfl)

theorem inDistance_ne_data {t' : HuffmanTree} : (((d.inMain h t).inDistance main t').withLengths s vs).state ≠ .data :=
  InTree.ne_data (.inr rfl)

/-- The bits of all items, where none is a repeat code. -/
theorem wordsOf_lengths (hlit : ∀ item ∈ h.items, item.symbol < 16) (l : List Nat) :
    h.items.flatMap (Item.bits l) = wordsOf l h.mainLengths ++ wordsOf l h.distanceLengths := by
  have hlengths : h.lengths = h.items.map Item.symbol := Item.foldl_expand_literal hlit
  rw [Item.flatMap_bits_literal hlit, ← hlengths, wordsOf, wordsOf, wordsOf, ← List.flatMap_append,
    DynamicHeader.mainLengths, DynamicHeader.distanceLengths, List.take_append_drop]

theorem length_mainLengths (hv : h.Valid) : h.mainLengths.length = h.mainCount := by
  rw [DynamicHeader.mainLengths, List.length_take, hv.length]
  omega

theorem length_distanceLengths (hv : h.Valid) : h.distanceLengths.length = h.distanceCount := by
  rw [DynamicHeader.distanceLengths, List.length_drop, hv.length]
  omega

theorem areSymbols_map (hv : h.Valid) {items : List Item} (hsub : ∀ item ∈ items, item ∈ h.items) :
    AreSymbols h (items.map Item.symbol) := by
  intro i hi
  obtain ⟨item, hitem, rfl⟩ := List.mem_map.mp hi
  rw [length_codeLengthCode]
  exact hv.symbol item (hsub item hitem)

theorem areSymbols_lengths (hv : h.Valid) (hlit : ∀ item ∈ h.items, item.symbol < 16) :
    AreSymbols h h.mainLengths ∧ AreSymbols h h.distanceLengths := by
  have hlengths : h.lengths = h.items.map Item.symbol := Item.foldl_expand_literal hlit
  have hall : AreSymbols h h.lengths := by
    rw [hlengths]
    exact areSymbols_map hv fun item hitem => hitem
  exact ⟨fun i hi => hall i (List.mem_of_mem_take hi), fun i hi => hall i (List.mem_of_mem_drop hi)⟩

/-- Both trees, where no item is a repeat code. -/
theorem header_literal (processData : BlockDecoder → Except DecoderFault (Bool × BlockDecoder)) (hv : h.Valid)
    (hstate : d.state = .initial) (ha : d.input.Ahead h.bits) (hlit : ∀ item ∈ h.items, item.symbol < 16) :
    ∃ t s₁ s₂ fuel₀, ∀ fuel calls, fuel₀ ≤ fuel →
      header processData fuel (calls + 3) d = header processData fuel calls ((d.inMain h t).withLengths s₁ []) ∧
      ((d.inMain h t).withLengths s₁ []).process processData fuel =
        ((d.inMain h t).withLengths s₂ h.mainLengths).finishTree ∧
      ∀ t₁, ∃ s₃, (((d.inMain h t).inDistance h.mainLengths t₁).withLengths s₂ []).process processData fuel =
        (((d.inMain h t).inDistance h.mainLengths t₁).withLengths s₃ h.distanceLengths).finishTree := by
  obtain ⟨t, s, hreads, hs, hstart⟩ := header_inMain processData hv hstate ha
  obtain ⟨hmain, hdistance⟩ := areSymbols_lengths hv hlit
  rw [wordsOf_lengths hlit, ← List.append_nil (_ ++ _), List.append_assoc] at hs
  refine ⟨t, s, s.skip (wordsOf (codeLengthCode h.codeLengths) h.mainLengths).length,
    h.codeLengths.length + (wordsOf (codeLengthCode h.codeLengths) h.mainLengths).length +
    (wordsOf (codeLengthCode h.codeLengths) h.distanceLengths).length, fun fuel calls hfuel => ⟨?_, ?_, fun t₁ => ?_⟩⟩
  · exact hstart fuel calls (by omega)
  · exact process_main processData hv hreads hmain hs (length_mainLengths hv) (by omega)
  · exact ⟨_, process_distance processData hv hreads hdistance hs.skip (length_distanceLengths hv) (by omega)⟩

theorem recovers_of_literal (hv : h.Valid) (hstate : d.state = .initial) (ha : d.input.Ahead h.bits)
    (hlit : ∀ item ∈ h.items, item.symbol < 16) (hmain : Fits h.mainLengths) (hdistance : Fits h.distanceLengths) :
    Recovers processData d h := by
  obtain ⟨t, s₁, s₂, fuel, hsteps⟩ := header_literal processData hv hstate ha hlit
  obtain ⟨hstart, hprocess, hnext⟩ := hsteps fuel 2 (Nat.le_refl _)
  obtain ⟨t₁, ht₁⟩ := hmain
  obtain ⟨t₂, ht₂⟩ := hdistance
  obtain ⟨s₃, hdist⟩ := hnext t₁
  rw [finishTree_main rfl ht₁] at hprocess
  rw [finishTree_distance rfl ht₂] at hdist
  refine ⟨fuel, 5,
    (((d.inMain h t).inDistance h.mainLengths t₁).inData h.distanceLengths t₂).withLengths s₃ [], ?_, rfl, ?_⟩
  · rw [hstart, header_true inMain_ne_data hprocess, header_true inDistance_ne_data hdist]
    rfl
  · change d.built ++ [_] ++ [_] ++ [_] = _
    rw [List.append_assoc, List.append_assoc, List.singleton_append, List.singleton_append]

theorem fits_of_recovers (hv : h.Valid) (hstate : d.state = .initial) (ha : d.input.Ahead h.bits)
    (hlit : ∀ item ∈ h.items, item.symbol < 16) (hr : Recovers processData d h) :
    Fits h.mainLengths ∧ Fits h.distanceLengths := by
  obtain ⟨fuel, calls, d', hh, hdata, -⟩ := hr
  obtain ⟨t, s₁, s₂, fuel₀, hsteps⟩ := header_literal processData hv hstate ha hlit
  obtain ⟨hstart, hprocess, hnext⟩ := hsteps (fuel + fuel₀) (calls + 2) (Nat.le_add_left _ _)
  have hmono := header_mono hh hdata fuel₀ 5
  rw [show calls + 5 = calls + 2 + 3 from rfl, hstart] at hmono
  by_contra hfits
  rw [not_and_or] at hfits
  by_cases hmain : Fits h.mainLengths
  · obtain ⟨t₁, ht₁⟩ := hmain
    obtain ⟨e, he⟩ := not_fits (hfits.resolve_left (not_not.mpr ⟨t₁, ht₁⟩))
    obtain ⟨s₃, hdist⟩ := hnext t₁
    rw [finishTree_main rfl ht₁] at hprocess
    rw [finishTree_error he] at hdist
    rw [header_true inMain_ne_data hprocess, header_error inDistance_ne_data hdist] at hmono
    cases hmono
  · obtain ⟨e, he⟩ := not_fits hmain
    rw [finishTree_error he] at hprocess
    rw [header_error inMain_ne_data hprocess] at hmono
    cases hmono

/-- Behind the lengths that are written out there is a repeat code: in the main tree or,
where that one is complete, in the distance tree. -/
theorem data_not_reached {r : Nat} (hv : h.Valid) (hreads : Reads t (codeLengthCode h.codeLengths))
    (hsyms : AreSymbols h syms) (hr : r < 19 ∧ (codeLengthCode h.codeLengths).getD r 0 ≠ 0) (h16 : 16 ≤ r)
    (ha : s.Ahead (wordsOf (codeLengthCode h.codeLengths) syms ++ (codeword (codeLengthCode h.codeLengths) r ++ bits)))
    (hcount : syms.length < h.mainCount + h.distanceCount)
    (hfuel : (wordsOf (codeLengthCode h.codeLengths) syms).length +
      (codeword (codeLengthCode h.codeLengths) r).length ≤ fuel)
    (hh : header processData fuel (calls + 2) ((d.inMain h t).withLengths s []) = .ok d') : d'.state ≠ .data := by
  have hrlt : r < (codeLengthCode h.codeLengths).length := by
    rw [length_codeLengthCode]
    exact hr.1
  have hl := length_lt_invalidSymbol h.codeLengths
  have h15 : maxBitLength < r := h16
  have h256 : r < 256 := hr.1.trans (by decide)
  by_cases hmain : syms.length < h.mainCount
  · have hstay : StaysPoisoned (((d.inMain h t).withLengths s []).process processData fuel) :=
      process_repeat (.inl rfl) hreads hl hsyms hrlt hr.2 h15 h256 ha hmain (target_inMain_le hv) hfuel
    exact header_staysPoisoned inMain_ne_data hstay hh
  · have hsplit : wordsOf (codeLengthCode h.codeLengths) syms =
        wordsOf (codeLengthCode h.codeLengths) (syms.take h.mainCount) ++
          wordsOf (codeLengthCode h.codeLengths) (syms.drop h.mainCount) := by
      rw [wordsOf, wordsOf, wordsOf, ← List.flatMap_append, List.take_append_drop]
    rw [hsplit, List.length_append] at hfuel
    rw [hsplit, List.append_assoc] at ha
    have hprocess := process_main (d := d) processData hv hreads (fun i hi => hsyms i (List.mem_of_mem_take hi)) ha
      (by rw [List.length_take]; omega) (show _ ≤ fuel by omega)
    by_cases hfits : Fits (syms.take h.mainCount)
    · obtain ⟨t₁, ht₁⟩ := hfits
      rw [finishTree_main rfl ht₁] at hprocess
      rw [header_true inMain_ne_data hprocess] at hh
      have hdrop : (syms.drop h.mainCount).length < h.distanceCount := by
        rw [List.length_drop]
        omega
      have hstay : StaysPoisoned ((((d.inMain h t).inDistance (syms.take h.mainCount) t₁).withLengths
          (s.skip (wordsOf (codeLengthCode h.codeLengths) (syms.take h.mainCount)).length) []).process processData fuel) :=
        process_repeat (.inr rfl) hreads hl (fun i hi => hsyms i (List.mem_of_mem_drop hi)) hrlt hr.2 h15 h256 ha.skip
          hdrop (target_inDistance_le hv) (by omega)
      exact header_staysPoisoned inDistance_ne_data hstay hh
    · obtain ⟨e, he⟩ := not_fits hfits
      rw [finishTree_error he] at hprocess
      rw [header_error inMain_ne_data hprocess] at hh
      cases hh

/-- A repeat code is never followed by the data. -/
theorem literal_of_recovers (hv : h.Valid) (hstate : d.state = .initial) (ha : d.input.Ahead h.bits)
    (hr : Recovers processData d h) : ∀ item ∈ h.items, item.symbol < 16 := by
  by_contra hrepeat
  obtain ⟨fuel, calls, d', hh, hdata, -⟩ := hr
  obtain ⟨pre, r, post, hitems, hpre, hr16⟩ : ∃ pre r post, h.items = pre ++ r :: post ∧
      (∀ item ∈ pre, item.symbol < 16) ∧ 16 ≤ r.symbol := by
    cases hfind : h.items.find? (fun item => decide (16 ≤ item.symbol)) with
    | none =>
        rw [List.find?_eq_none] at hfind
        exact absurd (fun item hitem => by simpa using hfind item hitem) hrepeat
    | some r =>
        obtain ⟨hr16, pre, post, hitems, hpre⟩ := List.find?_eq_some_iff_append.mp hfind
        exact ⟨pre, r, post, hitems, fun item hitem => by simpa using hpre item hitem, by simpa using hr16⟩
  obtain ⟨t, s, hreads, hs, hstart⟩ := header_inMain processData hv hstate ha
  have hrmem : r ∈ h.items := by
    rw [hitems]
    exact List.mem_append_right _ List.mem_cons_self
  have hsyms : AreSymbols h (pre.map Item.symbol) :=
    areSymbols_map hv fun item hitem => hitems ▸ List.mem_append_left _ hitem
  have hcount : (pre.map Item.symbol).length < h.mainCount + h.distanceCount := by
    have hlen : [].length + h.items.length ≤ h.lengths.length := Item.length_foldl_expand _ _
    rw [hv.length, hitems, List.length_append, List.length_cons, List.length_nil] at hlen
    rw [List.length_map]
    omega
  rw [hitems, List.flatMap_append, List.flatMap_cons, Item.flatMap_bits_literal hpre, Item.bits, List.append_assoc] at hs
  have hmono := header_mono hh hdata (h.codeLengths.length +
    (wordsOf (codeLengthCode h.codeLengths) (pre.map Item.symbol)).length +
      (codeword (codeLengthCode h.codeLengths) r.symbol).length) 5
  rw [show calls + 5 = calls + 2 + 3 from rfl, hstart _ _ (by omega)] at hmono
  exact data_not_reached hv hreads hsyms (hv.symbol r hrmem) hr16 hs hcount (by omega) hmono hdata

/-- The header is recovered exactly if it has no repeat code and both trees can be built. -/
theorem recovers_iff (hv : h.Valid) (hstate : d.state = .initial) (ha : d.input.Ahead h.bits) :
    Recovers processData d h ↔
      (∀ item ∈ h.items, item.symbol < 16) ∧ Fits h.mainLengths ∧ Fits h.distanceLengths := by
  constructor
  · intro hr
    have hlit := literal_of_recovers hv hstate ha hr
    exact ⟨hlit, fits_of_recovers hv hstate ha hlit hr⟩
  · rintro ⟨hlit, hmain, hdistance⟩
    exact recovers_of_literal hv hstate ha hlit hmain hdistance

/-- No run writes past the array of code lengths, and a header is recovered exactly if it has
no repeat code and both trees can be built. -/
theorem process_header (hdata : IsDataStage processData) (d : BlockDecoder) (hstate : d.state = .initial) :
    (∀ d' fuel, Session processData d d' → d'.process processData fuel ≠ .error .codeLengthsOverrun) ∧
      ∀ h : DynamicHeader, h.Valid → d.input.Ahead h.bits →
        (Recovers processData d h ↔
          (∀ item ∈ h.items, item.symbol < 16) ∧ Fits h.mainLengths ∧ Fits h.distanceLengths) :=
  ⟨fun _ _ hs => hs.process_ne_overrun hdata hstate, fun _ hv ha => recovers_iff hv hstate ha⟩

end Exact

section Sample

/-- Bytes that begin with some bits. -/
def pack (bits : List Bool) : List UInt8 :=
  (List.range ((bits.length + 7) / 8)).map fun k =>
    UInt8.ofNat (Nat.ofBits fun i : Fin 8 => bits.getD (8 * k + i) false)

theorem bitAt_pack {k : Nat} (hk : k < bits.length) : bitAt (pack bits) k = bits.getD k false := by
  have hbyte : k / 8 < (pack bits).length := by
    rw [pack, List.length_map, List.length_range]
    omega
  have hlt := Nat.ofBits_lt_two_pow fun i : Fin 8 => bits.getD (8 * (k / 8) + i) false
  rw [bitAt, List.getD_eq_getElem _ _ hbyte]
  simp only [pack, List.getElem_map, List.getElem_range]
  rw [UInt8.toNat_ofNat', Nat.mod_eq_of_lt hlt, Nat.testBit_ofBits_lt _ _ (Nat.mod_lt k (by decide)), Nat.div_add_mod]

theorem ahead_pack (bits : List Bool) : (({} : Bitstream).setInput (pack bits)).Ahead bits := by
  refine ⟨0, ⟨rfl, rfl⟩, ?_, fun k hk => ?_⟩
  · change 0 + bits.length ≤ 8 * (pack bits).length
    rw [pack, List.length_map, List.length_range]
    omega
  · rw [Nat.zero_add]
    exact (bitAt_pack hk).symm

/-- Two runs of 255 zeros together, two codes of one bit and one distance code. -/
def sampleHeader : DynamicHeader where
  final := true
  hlit := 0
  hdist := 0
  hclen := 14
  codeLengths := [0, 0, 1, 0, 0, 0, 0, 0, 0, 0, 0, 0, 0, 0, 0, 0, 0, 1]
  items := [⟨18, 127⟩, ⟨18, 106⟩, ⟨1, 0⟩, ⟨1, 0⟩, ⟨1, 0⟩]

theorem sampleHeader_lengths : sampleHeader.lengths = (List.replicate 255 0 ++ [1, 1]) ++ [1] := by
  have hrun : ∀ acc e, Item.expand acc ⟨18, e⟩ = acc ++ List.replicate (11 + e) 0 := fun _ _ => rfl
  have hone : ∀ acc, Item.expand acc ⟨1, 0⟩ = acc ++ [1] := fun _ => rfl
  rw [DynamicHeader.lengths, sampleHeader, List.foldl_cons, List.foldl_cons, List.foldl_cons, List.foldl_cons,
    List.foldl_cons, List.foldl_nil, hrun, hrun, hone, hone, hone, List.nil_append, List.replicate_append_replicate,
    List.append_assoc (List.replicate _ 0) [1] [1], List.singleton_append]

theorem sampleHeader_mainLengths : sampleHeader.mainLengths = List.replicate 255 0 ++ [1, 1] := by
  rw [DynamicHeader.mainLengths, sampleHeader_lengths]
  apply List.take_left'
  rw [List.length_append, List.length_replicate]
  rfl

theorem sampleHeader_distanceLengths : sampleHeader.distanceLengths = [1] := by
  rw [DynamicHeader.distanceLengths, sampleHeader_lengths]
  apply List.drop_left'
  rw [List.length_append, List.length_replicate]
  rfl

theorem sampleHeader_valid : sampleHeader.Valid where
  hlit := by decide
  hdist := by decide
  hclen := by decide
  length_codeLengths := rfl
  codeLengths_lt := by decide
  kraft := by decide
  symbol := by decide
  extra := by decide
  first := by decide
  length := by
    rw [sampleHeader_lengths, List.length_append, List.length_append, List.length_replicate]
    rfl
  mainKraft := by
    rw [sampleHeader_mainLengths, kraftSum, List.map_append, List.sum_append, List.map_replicate, if_pos rfl,
      List.sum_replicate, smul_zero]
    decide
  distanceKraft := by
    rw [sampleHeader_distanceLengths]
    decide

def sampleDecoder : BlockDecoder := { input := ({} : Bitstream).setInput (pack sampleHeader.bits) }

/-- A data stage for blocks that end at once. -/
def emptyData (d : BlockDecoder) : Except DecoderFault (Bool × BlockDecoder) := .ok (true, { d with state := .ended })

theorem isDataStage_emptyData : IsDataStage emptyData where
  noOverrun d h := by cases h
  state d more d' h := by
    obtain ⟨-, rfl⟩ := Prod.mk.inj (Except.ok.inj h)
    exact .inr (.inl rfl)

theorem process_header_sample :
    ∃ h : DynamicHeader, h.Valid ∧ sampleDecoder.input.Ahead h.bits ∧
      (Recovers emptyData sampleDecoder h ↔
        (∀ item ∈ h.items, item.symbol < 16) ∧ Fits h.mainLengths ∧ Fits h.distanceLengths) :=
  ⟨sampleHeader, sampleHeader_valid, ahead_pack _,
    (process_header isDataStage_emptyData sampleDecoder rfl).2 sampleHeader sampleHeader_valid (ahead_pack _)⟩

/-- Runs of zeros are read as code lengths of 18 bits. -/
theorem header_not_recovered :
    ∃ (d : BlockDecoder) (h : DynamicHeader), d.state = .initial ∧ h.Valid ∧ d.input.Ahead h.bits ∧
      ∀ processData, ¬ Recovers processData d h := by
  refine ⟨sampleDecoder, sampleHeader, rfl, sampleHeader_valid, ahead_pack _, fun processData hr => ?_⟩
  have hlit := literal_of_recovers sampleHeader_valid rfl (ahead_pack _) hr ⟨18, 127⟩ List.mem_cons_self
  exact absurd hlit (by decide)

end Sample

end BlockDecoder

end XviOs.Deflate
