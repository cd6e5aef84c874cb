import XviOs.Deflate.BlockDecoderSafety
import XviOs.Deflate.Header

namespace XviOs.Deflate.BlockDecoder

open Library.CanonicalCode

variable {d : BlockDecoder} {l vs : List Nat} {bits : List Bool} {b : Bool} {fuel i k m n : Nat}

theorem stream_ok {α β : Type} (a : α) (f : α → Except DecoderFault β) : (stream (.ok a) >>= f) = f a := rfl

theorem stream_error {α β : Type} (e : Fault) (f : α → Except DecoderFault β) :
    (stream (.error e) >>= f) = .error (.fault e) := rfl

section Tree

theorem bit_ne_zero (b : Bool) : decide (BitVec.setWidth 32 (BitVec.ofBool b) ≠ 0) = b := by
  cases b <;> rfl

/-- What happens at the end of a symbol. -/
def next (fuel : Nat) (d : BlockDecoder) : Except DecoderFault (Bool × BlockDecoder) :=
  if d.codeLengthsRead = d.target then d.finishTree else readTree fuel { d with huffmanState := some 0 }

/-- One bit inside of a code. -/
theorem readTree_inner (ha : d.input.Ahead (b :: bits)) (hstate : d.huffmanState = some n)
    (hchild : d.codeLengthTree.child n b = some m) (hvalue : (d.codeLengthTree.nodes m).value = invalidSymbol) :
    readTree (fuel + 1) d = readTree fuel { d with input := d.input.skip 1, huffmanState := some m } := by
  rw [readTree, ha.canReadBits (Nat.succ_pos _) (by decide), stream_ok]
  dsimp only
  rw [if_pos rfl, ha.readBit, stream_ok, hstate]
  dsimp only
  rw [bit_ne_zero, hchild]
  dsimp only
  rw [if_neg (not_not.mpr hvalue)]

/-- The last bit of a code. -/
theorem readTree_leaf (ha : d.input.Ahead (b :: bits)) (hstate : d.huffmanState = some n)
    (hchild : d.codeLengthTree.child n b = some m) (hvalue : (d.codeLengthTree.nodes m).value = i)
    (hi : i ≠ invalidSymbol) (hread : d.codeLengthsRead < symbolCount) :
    readTree (fuel + 1) d = next fuel { d with
      input := d.input.skip 1
      huffmanState := some m
      codeLengths := d.codeLengths.set d.codeLengthsRead (UInt8.ofNat i) hread
      codeLengthsRead := d.codeLengthsRead + 1 } := by
  rw [readTree, ha.canReadBits (Nat.succ_pos _) (by decide), stream_ok]
  dsimp only
  rw [if_pos rfl, ha.readBit, stream_ok, hstate]
  dsimp only
  rw [bit_ne_zero, hchild]
  dsimp only
  rw [if_pos (by rwa [hvalue]), hvalue, setCodeLength_eq hread]
  rfl

/-- The decoder in a tree, after some code lengths. -/
def withLengths (d : BlockDecoder) (input : Bitstream) (vs : List Nat) : BlockDecoder :=
  { d with input, huffmanState := some 0, codeLengths := vectorOf vs, codeLengthsRead := vs.length }

theorem next_withLengths (input : Bitstream) (vs : List Nat) :
    next fuel (d.withLengths input vs) =
      if vs.length = d.target then (d.withLengths input vs).finishTree else readTree fuel (d.withLengths input vs) := rfl

/-- The rest of the code of a symbol. -/
theorem readTree_word {p w : List Bool} (hreads : Reads d.codeLengthTree l) (hi : i < l.length) (h0 : l.getD i 0 ≠ 0)
    (hinv : i ≠ invalidSymbol) (hpw : p ++ w = codeword l i) (hw : w ≠ []) (hnode : d.codeLengthTree.lookup p = some n)
    (hstate : d.huffmanState = some n) (ha : d.input.Ahead (w ++ bits)) (hvs : d.codeLengths = vectorOf vs)
    (hread : d.codeLengthsRead = vs.length) (hlt : vs.length < symbolCount) :
    readTree (fuel + w.length) d = next fuel (d.withLengths (d.input.skip w.length) (vs ++ [i])) := by
  induction w generalizing p n d with
  | nil => exact absurd rfl hw
  | cons b w ih =>
      rw [List.length_cons, ← Nat.add_assoc]
      have hstep : d.codeLengthTree.lookup (p ++ [b]) = d.codeLengthTree.child n b := Library.Trie.walk_snoc hnode
      cases w with
      | nil =>
          obtain ⟨m, hm, hvalue⟩ := hreads.symbol i hi h0
          rw [← hpw, hstep] at hm
          rw [List.length_nil, Nat.add_zero, readTree_leaf ha hstate hm hvalue hinv (hread ▸ hlt)]
          have hset : d.codeLengths.set d.codeLengthsRead (UInt8.ofNat i) (hread ▸ hlt) = vectorOf (vs ++ [i]) := by
            rw [← set_vectorOf_snoc hlt]
            simp only [hvs, hread]
          rw [hset, hread]
          have hlen : (vs ++ [i]).length = vs.length + 1 := by rw [List.length_append, List.length_singleton]
          rw [withLengths, hlen]
          rfl
      | cons c w =>
          have happ : p ++ [b] ++ (c :: w) = codeword l i := by rw [← hpw, List.append_assoc, List.singleton_append]
          obtain ⟨m, hm, hvalue⟩ := hreads.inner i hi h0 (p ++ [b]) (c :: w) happ (List.cons_ne_nil c w)
          have hchild := hm
          rw [hstep] at hchild
          have hsplit : d.input.Ahead ([b] ++ (c :: w ++ bits)) := ha
          have ha' : (d.input.skip 1).Ahead (c :: w ++ bits) := hsplit.skip
          rw [readTree_inner ha hstate hchild hvalue,
            ih (d := { d with input := d.input.skip 1, huffmanState := some m }) hreads happ (List.cons_ne_nil c w) hm rfl
              ha' hvs hread]
          change next fuel (d.withLengths ((d.input.skip 1).skip _) _) = _
          rw [Bitstream.skip_skip, Nat.add_comm 1]

variable {s : Bitstream} {syms : List Nat}

theorem readTree_symbol (hreads : Reads d.codeLengthTree l) (hl : l.length < invalidSymbol) (hi : i < l.length)
    (h0 : l.getD i 0 ≠ 0) (ha : s.Ahead (codeword l i ++ bits)) (hlt : vs.length < symbolCount) :
    readTree (fuel + (codeword l i).length) (d.withLengths s vs) =
      next fuel (d.withLengths (s.skip (codeword l i).length) (vs ++ [i])) := by
  have hw : codeword l i ≠ [] := by
    rw [← List.length_pos_iff, codeword, length_bitsOf]
    omega
  have hinv : i ≠ invalidSymbol := by omega
  exact readTree_word (d := d.withLengths s vs) hreads hi h0 hinv (List.nil_append _) hw rfl rfl ha rfl rfl hlt

/-- The bits of some symbols. -/
def wordsOf (l syms : List Nat) : List Bool := syms.flatMap (codeword l)

/-- Symbols of the code length code, before the last length of a tree. -/
theorem readTree_symbols (hreads : Reads d.codeLengthTree l) (hl : l.length < invalidSymbol)
    (hsyms : ∀ i ∈ syms, i < l.length ∧ l.getD i 0 ≠ 0) (ha : s.Ahead (wordsOf l syms ++ bits))
    (hlt : vs.length + syms.length < d.target) (htarget : d.target ≤ symbolCount) :
    readTree (fuel + (wordsOf l syms).length) (d.withLengths s vs) =
      readTree fuel (d.withLengths (s.skip (wordsOf l syms).length) (vs ++ syms)) := by
  induction syms generalizing s vs with
  | nil =>
      rw [wordsOf, List.flatMap_nil, List.length_nil, Nat.add_zero, Bitstream.skip_zero, List.append_nil]
  | cons i syms ih =>
      rw [List.length_cons] at hlt
      obtain ⟨hi, h0⟩ := hsyms i List.mem_cons_self
      have hcons : wordsOf l (i :: syms) = codeword l i ++ wordsOf l syms := List.flatMap_cons
      rw [hcons, List.append_assoc] at ha
      have hfuel : fuel + (wordsOf l (i :: syms)).length = fuel + (wordsOf l syms).length + (codeword l i).length := by
        rw [hcons, List.length_append]
        omega
      have hlen : (vs ++ [i]).length = vs.length + 1 := by rw [List.length_append, List.length_singleton]
      rw [hfuel, readTree_symbol hreads hl hi h0 ha (by omega), next_withLengths, if_neg (by omega),
        ih (fun j hj => hsyms j (List.mem_cons_of_mem _ hj)) ha.skip (by omega), Bitstream.skip_skip, hcons,
        List.length_append, List.append_assoc, List.singleton_append]

/-- All symbols of a tree. -/
theorem readTree_all (hreads : Reads d.codeLengthTree l) (hl : l.length < invalidSymbol)
    (hsyms : ∀ i ∈ syms, i < l.length ∧ l.getD i 0 ≠ 0) (ha : s.Ahead (wordsOf l syms ++ bits))
    (hlen : syms.length = d.target) (hne : syms ≠ []) (htarget : d.target ≤ symbolCount) :
    readTree (fuel + (wordsOf l syms).length) (d.withLengths s []) =
      (d.withLengths (s.skip (wordsOf l syms).length) syms).finishTree := by
  obtain ⟨init, i, rfl⟩ := (List.eq_nil_or_concat' syms).resolve_left hne
  have hsplit : wordsOf l (init ++ [i]) = wordsOf l init ++ codeword l i := by
    rw [wordsOf, List.flatMap_append, List.flatMap_singleton, wordsOf]
  rw [List.length_append, List.length_singleton] at hlen
  rw [hsplit, List.append_assoc] at ha
  obtain ⟨hi, h0⟩ := hsyms i (by simp)
  have hfuel : fuel + (wordsOf l (init ++ [i])).length = fuel + (codeword l i).length + (wordsOf l init).length := by
    rw [hsplit, List.length_append]
    omega
  rw [hfuel, readTree_symbols hreads hl (fun j hj => hsyms j (List.mem_append_left _ hj)) ha
      (by rw [List.length_nil]; omega) htarget, List.nil_append, readTree_symbol hreads hl hi h0 ha.skip (by omega),
    next_withLengths, if_pos (by rw [List.length_append, List.length_singleton]; exact hlen), Bitstream.skip_skip, hsplit,
    List.length_append]

end Tree

section CodeLengths

variable {s : Bitstream} {pre rest : List Nat} {v : Nat}

theorem codeLengthCode_getD (cls : List Nat) (i : Nat) :
    (codeLengthCode cls).getD i 0 = if i < 19 then cls.getD (codeLengthOrder.idxOf i) 0 else 0 := by
  rw [codeLengthCode]
  split
  · rename_i hi
    rw [List.getD_eq_getElem _ _ (by rwa [List.length_map, List.length_range]), List.getElem_map, List.getElem_range]
  · rw [List.getD_eq_default _ _ (by rw [List.length_map, List.length_range]; omega)]

theorem idxOf_codeLengthOrder : ∀ k < 19, ∀ i < 19, (codeLengthOrder.idxOf i = k ↔ i = codeLengthMap.getD k 0) := by
  decide

theorem codeLengthCode_snoc (hk : pre.length < 19) (i : Nat) :
    (codeLengthCode (pre ++ [v])).getD i 0 =
      if i = codeLengthMap.getD pre.length 0 then v else (codeLengthCode pre).getD i 0 := by
  rw [codeLengthCode_getD, codeLengthCode_getD]
  by_cases hi : i < 19
  · rw [if_pos hi, if_pos hi, getD_snoc]
    simp only [idxOf_codeLengthOrder pre.length hk i hi]
  · have hmap : ∀ k < 19, codeLengthMap.getD k 0 < 19 := by decide
    have hne : i ≠ codeLengthMap.getD pre.length 0 := fun h => hi (h ▸ hmap pre.length hk)
    rw [if_neg hi, if_neg hi, if_neg hne]

/-- The decoder among the lengths of the code length code. -/
def withCodes (d : BlockDecoder) (input : Bitstream) (pre : List Nat) : BlockDecoder :=
  { d with input, codeLengths := vectorOf (codeLengthCode pre), codeLengthsRead := pre.length }

theorem readCodeLengths_one (ha : s.Ahead (lsbBits v 3 ++ bits)) (hv : v < 8) (hk : pre.length < 19) :
    readCodeLengths (fuel + 1) (d.withCodes s pre) =
      if pre.length + 1 = d.codeLengthSymbolCount then (d.withCodes (s.skip 3) (pre ++ [v])).finishCodeLengths
      else readCodeLengths fuel (d.withCodes (s.skip 3) (pre ++ [v])) := by
  have hlen : 3 ≤ (lsbBits v 3 ++ bits).length := by
    rw [List.length_append, length_lsbBits]
    omega
  have hmap : codeLengthMap[pre.length]? = some (codeLengthMap.getD pre.length 0) := by
    have hk' : pre.length < codeLengthMap.length := hk
    rw [List.getElem?_eq_getElem hk', List.getD_eq_getElem _ _ hk']
  have hset : ∀ h, (vectorOf (codeLengthCode pre)).set (codeLengthMap.getD pre.length 0) (UInt8.ofNat v) h =
      vectorOf (codeLengthCode (pre ++ [v])) := fun h => set_vectorOf h fun i _ => codeLengthCode_snoc hk i
  have hsnoc : (pre ++ [v]).length = pre.length + 1 := by rw [List.length_append, List.length_singleton]
  have hread : (BitVec.ofNat 32 v).toNat = v := by
    rw [BitVec.toNat_ofNat]
    omega
  rw [readCodeLengths, withCodes]
  dsimp only
  rw [ha.canReadBits hlen (by decide), stream_ok]
  dsimp only
  rw [if_pos rfl, hmap]
  dsimp only
  rw [ha.read (by decide) hv, stream_ok]
  dsimp only
  rw [setCodeLength_eq (codeLengthMap_lt hmap), hread, withCodes, hsnoc]
  change (if pre.length + 1 = d.codeLengthSymbolCount then _ else _) = _
  dsimp only
  rw [hset]

theorem readCodeLengths_rest (ha : s.Ahead (rest.flatMap (lsbBits · 3) ++ bits)) (hv : ∀ v ∈ rest, v < 8)
    (hcount : pre.length + rest.length = d.codeLengthSymbolCount) (h19 : d.codeLengthSymbolCount ≤ 19) (hne : rest ≠ []) :
    readCodeLengths (fuel + rest.length) (d.withCodes s pre) =
      (d.withCodes (s.skip (3 * rest.length)) (pre ++ rest)).finishCodeLengths := by
  induction rest generalizing pre s with
  | nil => exact absurd rfl hne
  | cons v rest ih =>
      rw [List.flatMap_cons, List.append_assoc] at ha
      rw [List.length_cons] at hcount
      have ha' := ha.skip
      rw [length_lsbBits] at ha'
      rw [List.length_cons, ← Nat.add_assoc, readCodeLengths_one ha (hv v List.mem_cons_self) (by omega)]
      cases rest with
      | nil =>
          rw [List.length_nil] at hcount
          rw [if_pos (by omega)]
          rfl
      | cons w rest =>
          rw [List.length_cons] at hcount
          have hsnoc : (pre ++ [v]).length = pre.length + 1 := by rw [List.length_append, List.length_singleton]
          rw [if_neg (by omega), ih ha' (fun x hx => hv x (List.mem_cons_of_mem _ hx))
            (by rw [List.length_cons]; omega) (List.cons_ne_nil w rest), Bitstream.skip_skip, List.append_assoc,
            List.singleton_append]
          congr 2
          rw [List.length_cons]
          congr 1
          omega

end CodeLengths

section Poison

/-- The array for the tree has a length that is too long in it. -/
def Poisoned (d : BlockDecoder) : Prop :=
  d.InTree ∧ ∃ k < d.codeLengthsRead, maxBitLength < (d.codeLengths.toList.getD k 0).toNat

theorem buildTree_poisoned {v : Vector UInt8 symbolCount} (hv : maxBitLength < (v.toList.getD k 0).toNat) :
    HuffmanTree.buildTree {} v = .error .invalidBitlength := by
  have hk : k < v.toList.length := by
    by_contra hge
    rw [List.getD_eq_default _ _ (not_lt.mp hge)] at hv
    exact absurd hv (by decide)
  rw [HuffmanTree.buildTree]
  apply if_pos
  rw [List.getD_eq_getElem _ _ hk] at hv
  exact ⟨_, List.mem_map_of_mem (List.getElem_mem hk), hv⟩

theorem Poisoned.finishTree (h : d.Poisoned) : d.finishTree = .error (.fault .invalidBitlength) := by
  obtain ⟨-, k, -, hk⟩ := h
  rw [BlockDecoder.finishTree, buildTree_poisoned hk, stream_error]

/-- No call can end in another way than in the same stage, or in the exception. -/
def StaysPoisoned : Except DecoderFault (Bool × BlockDecoder) → Prop
  | .error _ => True
  | .ok (_, d) => d.Poisoned

theorem staysPoisoned_bind {α : Type} {r : Except Fault α} {f : α → Except DecoderFault (Bool × BlockDecoder)}
    (h : ∀ a, r = .ok a → StaysPoisoned (f a)) : StaysPoisoned (stream r >>= f) := by
  cases hr : r with
  | error e => trivial
  | ok a => exact h a hr

theorem Poisoned.setCodeLength (h : d.Poisoned) (v : UInt8) (hread : d.codeLengthsRead < symbolCount) :
    Poisoned { d with
      codeLengths := d.codeLengths.set d.codeLengthsRead v hread
      codeLengthsRead := d.codeLengthsRead + 1 } := by
  obtain ⟨hstate, k, hk, hv⟩ := h
  refine ⟨hstate, k, Nat.lt_succ_of_lt hk, ?_⟩
  have hk' : k < d.codeLengths.toList.length := by
    rw [Vector.length_toList]
    omega
  rw [List.getD_eq_getElem _ _ hk', Vector.getElem_toList] at hv
  have hk'' : k < (d.codeLengths.set d.codeLengthsRead v hread).toList.length := by
    rw [Vector.length_toList]
    omega
  rwa [List.getD_eq_getElem _ _ hk'', Vector.getElem_toList, Vector.getElem_set_ne _ _ (Nat.ne_of_gt hk)]

theorem readTree_poisoned (h : d.Poisoned) : StaysPoisoned (readTree fuel d) := by
  induction fuel generalizing d with
  | zero => trivial
  | succ fuel ih =>
      rw [readTree]
      apply staysPoisoned_bind
      rintro ⟨ok, input⟩ -
      cases ok with
      | false => exact h
      | true =>
          apply staysPoisoned_bind
          rintro ⟨bit, input⟩ -
          dsimp only
          cases d.huffmanState with
          | none => trivial
          | some node =>
              dsimp only
              cases d.codeLengthTree.child node (bit ≠ 0) with
              | none => exact h
              | some next =>
                  dsimp only
                  split
                  · rw [BlockDecoder.setCodeLength]
                    split
                    · have h' := h.setCodeLength (UInt8.ofNat (d.codeLengthTree.nodes next).value) ‹_›
                      change StaysPoisoned (if d.codeLengthsRead + 1 = d.target then _ else _)
                      split
                      · have hfinish : Poisoned { d with
                            input
                            huffmanState := some next
                            codeLengths := d.codeLengths.set d.codeLengthsRead
                              (UInt8.ofNat (d.codeLengthTree.nodes next).value) ‹_›
                            codeLengthsRead := d.codeLengthsRead + 1 } := h'
                        rw [hfinish.finishTree]
                        trivial
                      · exact ih h'
                    · trivial
                  · exact ih h

theorem process_poisoned (fuel : Nat)
    (processData : BlockDecoder → Except DecoderFault (Bool × BlockDecoder)) (h : d.Poisoned) :
    StaysPoisoned (d.process processData fuel) := by
  have htree : StaysPoisoned (d.processTree fuel) := by
    apply staysPoisoned_bind
    rintro ⟨ok, input⟩ -
    cases ok with
    | false => exact h
    | true => exact readTree_poisoned (d := { d with input }) h
  rw [process]
  rcases h.1 with hs | hs <;> rw [hs] <;> exact htree

end Poison

end XviOs.Deflate.BlockDecoder
