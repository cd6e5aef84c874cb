import XviOs.Deflate.BitstreamSpec
import XviOs.Deflate.BlockDecoder
import XviOs.Deflate.HuffmanDecode

namespace XviOs.Deflate

/-- The bits of a number, from the least significant one. -/
def lsbBits (v n : Nat) : List Bool := (List.range n).map v.testBit

@[simp] theorem length_lsbBits (v n : Nat) : (lsbBits v n).length = n := by
  rw [lsbBits, List.length_map, List.length_range]

namespace Bitstream

variable {s : Bitstream} {b : Bool} {bits : List Bool} {n v : Nat}

/-- The bits that come next in the buffer. -/
def Ahead (s : Bitstream) (bits : List Bool) : Prop :=
  ∃ p, s.At p ∧ p + bits.length ≤ 8 * s.buffer.length ∧ ∀ k < bits.length, bits.getD k false = bitAt s.buffer (p + k)

def skip (s : Bitstream) (n : Nat) : Bitstream := { s with offset := s.offset + n }

theorem skip_zero (s : Bitstream) : s.skip 0 = s := by rw [skip, Nat.cast_zero, Int.add_zero]

theorem skip_skip (s : Bitstream) (m n : Nat) : (s.skip m).skip n = s.skip (m + n) := by
  rw [skip, skip, skip, Nat.cast_add, Int.add_assoc]

theorem At.moveTo_add {p : Nat} (h : s.At p) (n : Nat) : s.moveTo (p + n) = s.skip n := by
  rw [moveTo, skip, h.offset, Nat.cast_add]

theorem Ahead.canReadBits (h : s.Ahead bits) (hn : n ≤ bits.length) (h32 : n ≤ 32) :
    s.canReadBits n = .ok (true, s) := by
  obtain ⟨p, hp, hlen, -⟩ := h
  exact canReadBits_at hp h32 (by omega)

theorem Ahead.skip {first : List Bool} (h : s.Ahead (first ++ bits)) : (s.skip first.length).Ahead bits := by
  obtain ⟨p, hp, hlen, hbits⟩ := h
  rw [List.length_append] at hlen hbits
  refine ⟨p + first.length, ⟨hp.eof, ?_⟩, ?_, ?_⟩
  · rw [Bitstream.skip, hp.offset, Nat.cast_add]
  · change p + first.length + bits.length ≤ 8 * s.buffer.length
    omega
  · intro k hk
    have hk' := hbits (first.length + k) (by omega)
    rw [List.getD_append_right _ _ _ _ (Nat.le_add_right _ _), Nat.add_sub_cancel_left] at hk'
    rw [hk', Bitstream.skip, Nat.add_assoc]

theorem Ahead.readBit (h : s.Ahead (b :: bits)) :
    s.readBit = .ok (BitVec.setWidth 32 (BitVec.ofBool b), s.skip 1) := by
  obtain ⟨p, hp, hlen, hbits⟩ := h
  rw [List.length_cons] at hlen
  have hb : b = bitAt s.buffer p := hbits 0 (Nat.succ_pos _)
  rw [readBit_at hp (by omega), hp.moveTo_add, hb]

theorem Ahead.read (h : s.Ahead (lsbBits v n ++ bits)) (h32 : n ≤ 32) (hv : v < 2 ^ n) :
    s.read n = .ok (BitVec.ofNat 32 v, s.skip n) := by
  obtain ⟨p, hp, hlen, hbits⟩ := h
  rw [List.length_append, length_lsbBits] at hlen hbits
  obtain ⟨w, hw, hwbits⟩ := read_at hp h32 (by omega)
  rw [hw, hp.moveTo_add]
  congr 2
  apply BitVec.eq_of_getLsbD_eq
  intro i hi
  rw [hwbits i hi, BitVec.getLsbD_ofNat, decide_eq_true hi, Bool.true_and]
  by_cases hin : i < n
  · have hbit := hbits i (by omega)
    rw [List.getD_append _ _ _ _ (by rwa [length_lsbBits]), lsbBits,
      List.getD_eq_getElem _ _ (by rwa [List.length_map, List.length_range]), List.getElem_map,
      List.getElem_range] at hbit
    rw [decide_eq_true hin, Bool.true_and, hbit]
  · have hle : 2 ^ n ≤ 2 ^ i := Nat.pow_le_pow_right (by decide) (not_lt.mp hin)
    rw [decide_eq_false hin, Bool.false_and, Nat.testBit_lt_two_pow (hv.trans_le hle)]

end Bitstream

open Library.CanonicalCode

/-- One of the code length symbols, with the number in the extra bits after it. -/
structure Item where
  symbol : Nat
  extra : Nat

namespace Item

def extraBits : Nat → Nat
  | 16 => 2
  | 17 => 3
  | 18 => 7
  | _ => 0

/-- The code lengths up to this item, given those before it: 16 repeats the last one, and
17 and 18 are runs of zeros. -/
def expand (lengths : List Nat) (item : Item) : List Nat :=
  if item.symbol = 16 then lengths ++ List.replicate (3 + item.extra) (lengths.getLastD 0)
  else if item.symbol = 17 then lengths ++ List.replicate (3 + item.extra) 0
  else if item.symbol = 18 then lengths ++ List.replicate (11 + item.extra) 0
  else lengths ++ [item.symbol]

def bits (code : List Nat) (item : Item) : List Bool :=
  codeword code item.symbol ++ lsbBits item.extra (extraBits item.symbol)

end Item

/-- The header of a block with dynamic codes, as the format has it. -/
structure DynamicHeader where
  final : Bool
  hlit : Nat
  hdist : Nat
  hclen : Nat
  codeLengths : List Nat
  items : List Item

/-- The order of the lengths in the header. -/
def codeLengthOrder : List Nat := [16, 17, 18, 0, 8, 7, 9, 6, 10, 5, 11, 4, 12, 3, 13, 2, 14, 1, 15]

/-- The lengths of the code length code, symbol by symbol. -/
def codeLengthCode (codeLengths : List Nat) : List Nat :=
  (List.range 19).map fun symbol => codeLengths.getD (codeLengthOrder.idxOf symbol) 0

namespace DynamicHeader

variable (h : DynamicHeader)

def mainCount : Nat := 257 + h.hlit

def distanceCount : Nat := 1 + h.hdist

def lengths : List Nat := h.items.foldl Item.expand []

def mainLengths : List Nat := h.lengths.take h.mainCount

def distanceLengths : List Nat := h.lengths.drop h.mainCount

/-- The bits of the header from the start of the block on. -/
def bits : List Bool :=
  h.final :: (lsbBits 2 2 ++ (lsbBits h.hlit 5 ++ (lsbBits h.hdist 5 ++ (lsbBits h.hclen 4 ++
    (h.codeLengths.flatMap (lsbBits · 3) ++ h.items.flatMap (Item.bits (codeLengthCode h.codeLengths)))))))

/-- What the format demands of a header. -/
structure Valid : Prop where
  hlit : h.hlit < 32
  hdist : h.hdist < 32
  hclen : h.hclen < 16
  length_codeLengths : h.codeLengths.length = 4 + h.hclen
  codeLengths_lt : ∀ l ∈ h.codeLengths, l < 8
  kraft : kraftSum (codeLengthCode h.codeLengths) 7 ≤ 2 ^ 7
  symbol : ∀ item ∈ h.items, item.symbol < 19 ∧ (codeLengthCode h.codeLengths).getD item.symbol 0 ≠ 0
  extra : ∀ item ∈ h.items, item.extra < 2 ^ Item.extraBits item.symbol
  first : ∀ item ∈ h.items.head?, item.symbol ≠ 16
  length : h.lengths.length = h.mainCount + h.distanceCount
  mainKraft : kraftSum h.mainLengths 15 ≤ 2 ^ 15
  distanceKraft : kraftSum h.distanceLengths 15 ≤ 2 ^ 15

end DynamicHeader

end XviOs.Deflate

namespace XviOs.Deflate

open Library.CanonicalCode HuffmanTree

/-- An array of code lengths that is zero from the end of the list on. -/
def vectorOf (l : List Nat) : Vector UInt8 symbolCount := Vector.ofFn fun i => UInt8.ofNat (l.getD i 0)

variable {l : List Nat} {i k n : Nat} {t : HuffmanTree} {p : List Bool}

theorem toList_getD_vectorOf (hi : i < symbolCount) : (vectorOf l).toList.getD i 0 = UInt8.ofNat (l.getD i 0) := by
  have hlt : i < (vectorOf l).toList.length := by rwa [Vector.length_toList]
  rw [List.getD_eq_getElem _ _ hlt, Vector.getElem_toList]
  exact Vector.getElem_ofFn hi

theorem vectorOf_nil : vectorOf [] = Vector.replicate symbolCount 0 := by
  ext i hi
  rw [vectorOf, Vector.getElem_ofFn, Vector.getElem_replicate]
  rfl

theorem set_vectorOf (hk : k < symbolCount) {l' : List Nat} {v : Nat}
    (hl : ∀ i < symbolCount, l'.getD i 0 = if i = k then v else l.getD i 0) :
    (vectorOf l).set k (UInt8.ofNat v) hk = vectorOf l' := by
  ext i hi
  rw [Vector.getElem_set, vectorOf, vectorOf, Vector.getElem_ofFn, Vector.getElem_ofFn, hl i hi]
  by_cases hik : i = k
  · rw [if_pos hik.symm, if_pos hik]
  · rw [if_neg (Ne.symm hik), if_neg hik]

theorem getD_snoc (l : List Nat) (v i : Nat) : (l ++ [v]).getD i 0 = if i = l.length then v else l.getD i 0 := by
  rcases lt_trichotomy i l.length with h | rfl | h
  · rw [List.getD_append _ _ _ _ h, if_neg (Nat.ne_of_lt h)]
  · rw [List.getD_append_right _ _ _ _ (Nat.le_refl _), Nat.sub_self, if_pos rfl]
    rfl
  · rw [List.getD_eq_default _ _ (by rw [List.length_append, List.length_singleton]; omega), if_neg (Nat.ne_of_gt h),
      List.getD_eq_default _ _ h.le]

theorem set_vectorOf_snoc {v : Nat} (hl : l.length < symbolCount) :
    (vectorOf l).set l.length (UInt8.ofNat v) hl = vectorOf (l ++ [v]) :=
  set_vectorOf hl fun i _ => getD_snoc l v i

theorem lengthsOf_vectorOf (hlen : l.length ≤ symbolCount) (hmax : ∀ x ∈ l, x < 256) :
    lengthsOf (vectorOf l) = l ++ List.replicate (symbolCount - l.length) 0 := by
  apply List.ext_getElem
  · rw [length_lengthsOf, List.length_append, List.length_replicate]
    omega
  · intro i hi _
    rw [length_lengthsOf] at hi
    simp only [lengthsOf, vectorOf, List.getElem_map, Vector.getElem_toList, Vector.getElem_ofFn]
    by_cases hil : i < l.length
    · rw [List.getD_eq_getElem _ _ hil, List.getElem_append_left hil, UInt8.toNat_ofNat']
      exact Nat.mod_eq_of_lt (hmax _ (List.getElem_mem hil))
    · rw [List.getD_eq_default _ _ (not_lt.mp hil), List.getElem_append_right (not_lt.mp hil), List.getElem_replicate]
      rfl

/-- Along the code of each symbol the tree leads to the symbol, and not to another one before. -/
structure Reads (t : HuffmanTree) (l : List Nat) : Prop where
  symbol : ∀ i < l.length, l.getD i 0 ≠ 0 → ∃ n, t.lookup (codeword l i) = some n ∧ (t.nodes n).value = i
  inner : ∀ i < l.length, l.getD i 0 ≠ 0 → ∀ p q, p ++ q = codeword l i → q ≠ [] →
    ∃ n, t.lookup p = some n ∧ (t.nodes n).value = invalidSymbol

theorem HuffmanTree.Complete.reads {cs : Symbols} {label : Nat → List Bool} (h : Complete cs label symbolCount t)
    (hcs : Canonical cs l) : Reads t l where
  symbol i hi h0 := by
    rw [hcs.length] at hi
    have hreach := h.reach i hi ((hcs.lenOf i hi).symm ▸ h0)
    rw [hcs.wordOf i hi h0] at hreach
    exact ⟨i + 1, hreach, h.leafValue i hi⟩
  inner i hi h0 p q hpq hq := by
    rw [hcs.length] at hi
    have hreach := h.reach i hi ((hcs.lenOf i hi).symm ▸ h0)
    rw [hcs.wordOf i hi h0, ← hpq, lookup, Library.Trie.walk_append, Option.bind_eq_some_iff] at hreach
    obtain ⟨n, hn, -⟩ := hreach
    obtain ⟨hlabel, hinv | ⟨j, hj, rfl, hj0, -⟩⟩ := h.lookup_cases (Nat.le_refl _) hn
    · exact ⟨n, hn, hinv⟩
    · -- a symbol on the way would have a code that begins this one
      exfalso
      rw [h.leaf j hj] at hlabel
      have hpre : wordOf cs j <+: wordOf cs i := by
        rw [hcs.wordOf i hi h0, ← hpq, hlabel]
        exact List.prefix_append _ _
      obtain rfl := hcs.prefix_free hj hi hj0 ((hcs.lenOf i hi).symm ▸ h0) hpre
      rw [hcs.wordOf j hj h0, ← hpq] at hlabel
      exact hq (List.append_right_eq_self.mp hlabel)

/-- Lengths without the longest one always give a tree, which reads their canonical code. -/
theorem buildTree_reads (hlen : l.length ≤ symbolCount) (hmax : ∀ x ∈ l, x < maxBitLength)
    (hkraft : kraftSum l maxBitLength ≤ 2 ^ maxBitLength) :
    ∃ t, HuffmanTree.buildTree {} (vectorOf l) = .ok t ∧ Reads t l := by
  have hmax15 : ∀ x ∈ l, x < 256 := fun x hx => (hmax x hx).trans (by decide)
  have hpad := lengthsOf_vectorOf hlen hmax15
  have hshort : ∀ x ∈ lengthsOf (vectorOf l), x < maxBitLength := by
    intro x hx
    rw [hpad, List.mem_append, List.mem_replicate] at hx
    rcases hx with hx | ⟨-, rfl⟩
    · exact hmax x hx
    · decide
  have hcs : Canonical (symbolsOf (lengthsOf (vectorOf l))) (lengthsOf (vectorOf l)) := by
    apply canonical_symbolsOf (length_lengthsOf _)
    · exact fun x hx => (hshort x hx).le
    · rwa [hpad, kraftSum_append_zeros]
    · exact .inl fun x hx => (hshort x hx).ne
  obtain ⟨t, label, ht, h⟩ := insertSymbols_complete List.drop_zero hcs (Nat.zero_le _) (complete_terminals {})
  refine ⟨t, by rw [buildTree_eq fun x hx => (hshort x hx).le, ht], ?_⟩
  have hreads := h.reads hcs
  rw [hpad] at hreads
  have hlt : ∀ {i}, i < l.length → i < (l ++ List.replicate (symbolCount - l.length) 0).length := by
    intro i hi
    rw [List.length_append]
    omega
  constructor
  · intro i hi h0
    have hi' := hreads.symbol i (hlt hi) (by rwa [List.getD_append _ _ _ _ hi])
    rwa [codeword_append_zeros _ hi] at hi'
  · intro i hi h0 p q hpq hq
    exact hreads.inner i (hlt hi) (by rwa [List.getD_append _ _ _ _ hi]) p q
      (by rwa [codeword_append_zeros _ hi]) hq

end XviOs.Deflate
