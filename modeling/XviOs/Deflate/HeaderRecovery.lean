import XviOs.Deflate.HeaderDecode

namespace XviOs.Deflate

open Library.CanonicalCode

namespace Item

variable {items : List Item} {acc l : List Nat} {item : Item}

theorem foldl_expand_literal (h : ∀ item ∈ items, item.symbol < 16) :
    items.foldl expand acc = acc ++ items.map Item.symbol := by
  induction items generalizing acc with
  | nil => rw [List.foldl_nil, List.map_nil, List.append_nil]
  | cons item items ih =>
      have hitem := h item List.mem_cons_self
      have hexpand : expand acc item = acc ++ [item.symbol] := by
        rw [expand, if_neg (by omega), if_neg (by omega), if_neg (by omega)]
      rw [List.foldl_cons, ih fun x hx => h x (List.mem_cons_of_mem _ hx), hexpand, List.map_cons, List.append_assoc,
        List.singleton_append]

theorem length_expand (acc : List Nat) (item : Item) : acc.length < (expand acc item).length := by
  rw [expand]
  split
  · rw [List.length_append, List.length_replicate]
    omega
  · split
    · rw [List.length_append, List.length_replicate]
      omega
    · split
      · rw [List.length_append, List.length_replicate]
        omega
      · rw [List.length_append, List.length_singleton]
        omega

theorem length_foldl_expand (items : List Item) (acc : List Nat) :
    acc.length + items.length ≤ (items.foldl expand acc).length := by
  induction items generalizing acc with
  | nil => exact Nat.le_refl _
  | cons item items ih =>
      have h := ih (expand acc item)
      have hone := length_expand acc item
      rw [List.foldl_cons, List.length_cons]
      omega

theorem bits_literal (h : item.symbol < 16) : item.bits l = codeword l item.symbol := by
  have hextra : ∀ symbol < 16, extraBits symbol = 0 := by decide
  rw [bits, hextra _ h]
  exact List.append_nil _

theorem flatMap_bits_literal (h : ∀ item ∈ items, item.symbol < 16) :
    items.flatMap (bits l) = BlockDecoder.wordsOf l (items.map Item.symbol) := by
  rw [BlockDecoder.wordsOf, List.flatMap_map]
  exact List.flatMap_congr fun item hitem => bits_literal (h item hitem)

end Item

namespace BlockDecoder

variable {processData : BlockDecoder → Except DecoderFault (Bool × BlockDecoder)} {d d' : BlockDecoder} {h : DynamicHeader}
  {l vs syms : List Nat} {bits : List Bool} {s : Bitstream} {t : HuffmanTree} {fuel calls i k : Nat}

/-- Calls of `process` up to the data. -/
def header (processData : BlockDecoder → Except DecoderFault (Bool × BlockDecoder)) (fuel : Nat) :
    Nat → BlockDecoder → Except DecoderFault BlockDecoder
  | 0, d => .ok d
  | calls + 1, d =>
    if d.state = .data then .ok d
    else
      match d.process processData fuel with
      | .error f => .error f
      | .ok (false, d) => .ok d
      | .ok (true, d) => header processData fuel calls d

section Fuel

/-- More rounds do not change a result. -/
def Below (x y : Except DecoderFault (Bool × BlockDecoder)) : Prop := ∀ r, x = .ok r → y = .ok r

theorem below_bind {α : Type} {r : Except Fault α} {f g : α → Except DecoderFault (Bool × BlockDecoder)}
    (h : ∀ a, Below (f a) (g a)) : Below (stream r >>= f) (stream r >>= g) := by
  intro x hx
  cases r with
  | error e => cases hx
  | ok a => exact h a x hx

theorem readCodeLengths_below (fuel : Nat) (d : BlockDecoder) :
    Below (readCodeLengths fuel d) (readCodeLengths (fuel + 1) d) := by
  induction fuel generalizing d with
  | zero =>
      intro r hr
      cases hr
  | succ fuel ih =>
      rw [readCodeLengths, readCodeLengths.eq_2 d (fuel + 1)]
      apply below_bind
      rintro ⟨ok, input⟩
      dsimp only
      split
      · split
        · exact fun _ hr => hr
        · apply below_bind
          rintro ⟨length, input⟩
          dsimp only
          cases setCodeLength { d with input } _ (UInt8.ofNat length.toNat) with
          | error e => exact fun _ hr => hr
          | ok d' =>
              change Below (if _ then _ else _) (if _ then _ else _)
              split
              · exact fun _ hr => hr
              · exact ih _
      · exact fun _ hr => hr

theorem readTree_below (fuel : Nat) (d : BlockDecoder) : Below (readTree fuel d) (readTree (fuel + 1) d) := by
  induction fuel generalizing d with
  | zero =>
      intro r hr
      cases hr
  | succ fuel ih =>
      rw [readTree, readTree.eq_2 d (fuel + 1)]
      apply below_bind
      rintro ⟨ok, input⟩
      dsimp only
      split
      · apply below_bind
        rintro ⟨bit, input⟩
        dsimp only
        split
        · exact fun _ hr => hr
        · split
          · exact fun _ hr => hr
          · split
            · cases setCodeLength _ d.codeLengthsRead (UInt8.ofNat _) with
              | error e => exact fun _ hr => hr
              | ok d' =>
                  change Below (if _ then _ else _) (if _ then _ else _)
                  split
                  · exact fun _ hr => hr
                  · exact ih _
            · exact ih _
      · exact fun _ hr => hr

theorem process_below (fuel : Nat) (d : BlockDecoder) :
    Below (d.process processData fuel) (d.process processData (fuel + 1)) := by
  have htree : Below (d.processTree fuel) (d.processTree (fuel + 1)) := by
    apply below_bind
    rintro ⟨ok, input⟩
    dsimp only
    split
    · exact readTree_below fuel _
    · exact fun _ hr => hr
  rw [process, process]
  cases d.state with
  | codeLengths =>
      apply below_bind
      rintro ⟨ok, input⟩
      dsimp only
      split
      · exact readCodeLengths_below fuel _
      · exact fun _ hr => hr
  | mainTree => exact htree
  | distanceTree => exact htree
  | _ => exact fun _ hr => hr

theorem process_mono (hp : d.process processData fuel = .ok r) (k : Nat) : d.process processData (fuel + k) = .ok r := by
  induction k with
  | zero => exact hp
  | succ k ih => exact process_below (fuel + k) d _ ih

/-- More calls and more rounds in each do not change what has reached the data. -/
theorem header_mono (hd : header processData fuel calls d = .ok d') (hdata : d'.state = .data) (k m : Nat) :
    header processData (fuel + k) (calls + m) d = .ok d' := by
  induction calls generalizing d with
  | zero =>
      obtain rfl := Except.ok.inj hd
      cases m with
      | zero => rfl
      | succ m => rw [← Nat.add_assoc, header, if_pos hdata]
  | succ calls ih =>
      rw [Nat.add_right_comm, header]
      rw [header] at hd
      split at hd
      · rw [if_pos ‹_›, hd]
      · rw [if_neg ‹_›]
        cases hp : d.process processData fuel with
        | error f =>
            rw [hp] at hd
            cases hd
        | ok r =>
            obtain ⟨more, d₁⟩ := r
            rw [hp] at hd
            rw [process_mono hp k]
            cases more with
            | false => exact hd
            | true => exact ih hd

end Fuel

section Steps

theorem header_true (hstate : d.state ≠ .data) (hp : d.process processData fuel = .ok (true, d')) :
    header processData fuel (calls + 1) d = header processData fuel calls d' := by
  rw [header, if_neg hstate, hp]

theorem header_error {f : DecoderFault} (hstate : d.state ≠ .data) (hp : d.process processData fuel = .error f) :
    header processData fuel (calls + 1) d = .error f := by
  rw [header, if_neg hstate, hp]

theorem InTree.ne_data (h : d.InTree) : d.state ≠ .data := by
  rintro hs
  rcases h with h | h <;> rw [hs] at h <;> cases h

/-- From a wrong length on, the data is not reached. -/
theorem header_poisoned (hd : d.Poisoned) (hh : header processData fuel calls d = .ok d') : d'.state ≠ .data := by
  induction calls generalizing d with
  | zero =>
      obtain rfl := Except.ok.inj hh
      exact hd.1.ne_data
  | succ calls ih =>
      have hstay := process_poisoned fuel processData hd
      cases hp : d.process processData fuel with
      | error f =>
          rw [header_error hd.1.ne_data hp] at hh
          cases hh
      | ok r =>
          obtain ⟨more, d₁⟩ := r
          rw [hp] at hstay
          cases more with
          | true =>
              rw [header_true hd.1.ne_data hp] at hh
              exact ih hstay hh
          | false =>
              rw [header, if_neg hd.1.ne_data, hp] at hh
              obtain rfl := Except.ok.inj hh
              exact hstay.1.ne_data

theorem processInitial_header {final : Bool} (hstate : d.state = .initial)
    (ha : d.input.Ahead (final :: (lsbBits 2 2 ++ bits))) :
    d.process processData fuel = .ok (true, { d with
      input := d.input.skip 3, final := final, type := .dynamicHuffman, state := .haveBlockType }) := by
  have hlen : 3 ≤ (final :: (lsbBits 2 2 ++ bits)).length := by
    rw [List.length_cons, List.length_append, length_lsbBits]
    omega
  have hfinal : final :: (lsbBits 2 2 ++ bits) = lsbBits final.toNat 1 ++ (lsbBits 2 2 ++ bits) := by
    cases final <;> rfl
  have ha' := ha
  rw [hfinal] at ha'
  have hread := ha'.read (by decide) (by cases final <;> decide)
  have ha'' := ha'.skip
  rw [length_lsbBits] at ha''
  rw [process, hstate]
  dsimp only
  rw [processInitial, ha.canReadBits hlen (by decide), stream_ok]
  dsimp only
  rw [if_pos rfl, hread, stream_ok]
  dsimp only
  rw [ha''.read (by decide) (by decide), stream_ok, Bitstream.skip_skip]
  cases final <;> rfl

theorem processBlockType_header {hlit hdist hclen : Nat} (hstate : d.state = .haveBlockType)
    (htype : d.type = .dynamicHuffman) (hlit32 : hlit < 32) (hdist32 : hdist < 32) (hclen16 : hclen < 16)
    (ha : d.input.Ahead (lsbBits hlit 5 ++ (lsbBits hdist 5 ++ (lsbBits hclen 4 ++ bits)))) :
    d.process processData fuel = .ok (true, { d with
      input := d.input.skip 14
      mainSymbolCount := 257 + hlit
      distanceSymbolCount := 1 + hdist
      codeLengthSymbolCount := 4 + hclen
      codeLengths := Vector.replicate symbolCount 0
      codeLengthsRead := 0
      state := .codeLengths }) := by
  have hlen : 14 ≤ (lsbBits hlit 5 ++ (lsbBits hdist 5 ++ (lsbBits hclen 4 ++ bits))).length := by
    simp only [List.length_append, length_lsbBits]
    omega
  have ha₁ := ha.skip
  rw [length_lsbBits] at ha₁
  have ha₂ := ha₁.skip
  rw [length_lsbBits] at ha₂
  have htoNat : ∀ v < 32, (BitVec.ofNat 32 v).toNat = v := by
    intro v hv
    rw [BitVec.toNat_ofNat]
    omega
  rw [process, hstate]
  dsimp only
  rw [processBlockType, htype]
  dsimp only
  rw [ha.canReadBits hlen (by decide), stream_ok]
  dsimp only
  rw [if_pos rfl, ha.read (by decide) hlit32, stream_ok]
  dsimp only
  rw [ha₁.read (by decide) hdist32, stream_ok]
  dsimp only
  rw [ha₂.read (by decide) hclen16, stream_ok]
  dsimp only
  rw [htoNat hlit hlit32, htoNat hdist hdist32, htoNat hclen (by omega), Bitstream.skip_skip, Bitstream.skip_skip]
  rfl

/-- The decoder with what the header says before the main tree. -/
def inMain (d : BlockDecoder) (h : DynamicHeader) (t : HuffmanTree) : BlockDecoder :=
  { d with
    final := h.final
    type := .dynamicHuffman
    mainSymbolCount := h.mainCount
    distanceSymbolCount := h.distanceCount
    codeLengthSymbolCount := 4 + h.hclen
    codeLengthTree := t
    state := .mainTree
    built := d.built ++ [vectorOf (codeLengthCode h.codeLengths)] }

/-- The decoder after the main tree. -/
def inDistance (d : BlockDecoder) (vs : List Nat) (t : HuffmanTree) : BlockDecoder :=
  { d with mainTree := t, state := .distanceTree, built := d.built ++ [vectorOf vs] }

/-- The decoder after the distance tree. -/
def inData (d : BlockDecoder) (vs : List Nat) (t : HuffmanTree) : BlockDecoder :=
  { d with distanceTree := t, state := .data, built := d.built ++ [vectorOf vs] }

theorem finishCodeLengths_ok {v : Vector UInt8 symbolCount} (hv : d.codeLengths = v)
    (hbuild : HuffmanTree.buildTree {} v = .ok t) :
    d.finishCodeLengths = .ok (true, withLengths { d with
      codeLengthTree := t, state := .mainTree, built := d.built ++ [v] } d.input []) := by
  rw [finishCodeLengths, hv, hbuild, stream_ok, withLengths, vectorOf_nil]
  rfl

theorem finishTree_main (hstate : d.state = .mainTree) (hbuild : HuffmanTree.buildTree {} (vectorOf vs) = .ok t) :
    (d.withLengths s vs).finishTree = .ok (true, (d.inDistance vs t).withLengths s []) := by
  rw [finishTree, withLengths]
  dsimp only
  rw [hbuild, stream_ok, if_pos hstate, inDistance, withLengths, vectorOf_nil]
  rfl

theorem finishTree_distance (hstate : d.state = .distanceTree)
    (hbuild : HuffmanTree.buildTree {} (vectorOf vs) = .ok t) :
    (d.withLengths s vs).finishTree = .ok (true, (d.inData vs t).withLengths s []) := by
  have hne : d.state ≠ .mainTree := by
    rw [hstate]
    decide
  rw [finishTree, withLengths]
  dsimp only
  rw [hbuild, stream_ok, if_neg hne, inData, withLengths, vectorOf_nil]
  rfl

theorem finishTree_error {e : Fault} (hbuild : HuffmanTree.buildTree {} (vectorOf vs) = .error e) :
    (d.withLengths s vs).finishTree = .error (.fault e) := by
  rw [finishTree, withLengths]
  dsimp only
  rw [hbuild, stream_error]

end Steps

end BlockDecoder

end XviOs.Deflate
