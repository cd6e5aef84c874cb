import XviOs.Deflate.BlockDecoder

namespace XviOs.Deflate

namespace Bitstream

variable {s t : Bitstream} {b v v' : BitVec 32} {n count offset i : Nat}

theorem getLsbD_of_nextBit (h : s.nextBit = .ok (b, t)) (hi : 0 < i) : b.getLsbD i = false := by
  rw [nextBit] at h
  revert h
  cases byteAt (if s.offset ≥ 0 then s.buffer else s.overflow)
      (if s.offset ≥ 0 then s.offset / 8 else overflowSize - (-s.offset) / 8) with
  | error e => intro h; cases h
  | ok byte =>
      intro h
      obtain ⟨rfl, -⟩ := Prod.mk.inj (Except.ok.inj h)
      have hone : (1 : BitVec 32).getLsbD i = false := by
        rw [show (1 : BitVec 32) = 1#32 from rfl, BitVec.getLsbD_one, decide_eq_false (Nat.ne_of_gt hi), Bool.and_false]
      rw [BitVec.getLsbD_and, hone, Bool.and_false]

/-- A bit is 0 or 1, wherever it comes from. -/
theorem getLsbD_of_readBit (h : s.readBit = .ok (b, t)) (hi : 0 < i) : b.getLsbD i = false := by
  have hzero : ∀ {u : Bitstream}, Except.ok ((0 : BitVec 32), u) = Except.ok (ε := Fault) (b, t) → b.getLsbD i = false := by
    intro u hu
    obtain ⟨rfl, -⟩ := Prod.mk.inj (Except.ok.inj hu)
    exact BitVec.getLsbD_zero
  rw [readBit] at h
  split at h
  · exact hzero h
  · split at h
    · revert h
      cases s.refillBuffer with
      | error e => intro h; cases h
      | ok r =>
          obtain ⟨more, u⟩ := r
          cases more with
          | false => intro h; exact hzero h
          | true => intro h; exact getLsbD_of_nextBit h hi
    · exact getLsbD_of_nextBit h hi

theorem getLsbD_of_readFrom (h : readFrom count offset v s = .ok (v', t)) (hi : offset + count ≤ i) :
    v'.getLsbD i = v.getLsbD i := by
  induction count generalizing offset v s with
  | zero =>
      obtain ⟨rfl, -⟩ := Prod.mk.inj (Except.ok.inj h)
      rfl
  | succ count ih =>
      rw [readFrom] at h
      cases hbit : s.readBit with
      | error e => rw [hbit] at h; cases h
      | ok r =>
          obtain ⟨b, u⟩ := r
          rw [hbit] at h
          rw [ih h (by omega), BitVec.getLsbD_or, BitVec.getLsbD_shiftLeft, getLsbD_of_readBit hbit (by omega)]
          simp

/-- What is read has no more bits than were asked for. -/
theorem read_lt (h : s.read n = .ok (v, t)) : v.toNat < 2 ^ n := by
  apply Nat.lt_pow_two_of_testBit
  intro i hi
  rw [BitVec.testBit_toNat]
  rw [read] at h
  cases hcan : s.canReadBits n with
  | error e => rw [hcan] at h; cases h
  | ok r =>
      obtain ⟨ok, u⟩ := r
      rw [hcan] at h
      cases ok with
      | false =>
          obtain ⟨rfl, -⟩ := Prod.mk.inj (Except.ok.inj h)
          exact BitVec.getLsbD_zero
      | true =>
          rw [getLsbD_of_readFrom h (by omega)]
          exact BitVec.getLsbD_zero

end Bitstream

namespace BlockDecoder

/-- The next length of the array that is being filled has a place in it. -/
def InBounds (d : BlockDecoder) : Prop :=
  match d.state with
  | .codeLengths => d.codeLengthsRead < d.codeLengthSymbolCount ∧ d.codeLengthSymbolCount ≤ codeLengthMap.length ∧
      0 < d.mainSymbolCount ∧ d.mainSymbolCount ≤ symbolCount ∧
      0 < d.distanceSymbolCount ∧ d.distanceSymbolCount ≤ symbolCount
  | .mainTree => d.codeLengthsRead < d.mainSymbolCount ∧ d.mainSymbolCount ≤ symbolCount ∧
      0 < d.distanceSymbolCount ∧ d.distanceSymbolCount ≤ symbolCount
  | .distanceTree => d.codeLengthsRead < d.distanceSymbolCount ∧ d.distanceSymbolCount ≤ symbolCount
  | _ => True

/-- No write past the end, neither yet nor with the next length. -/
def Safe : Except DecoderFault (Bool × BlockDecoder) → Prop
  | .error f => f ≠ .codeLengthsOverrun
  | .ok (_, d) => d.InBounds

variable {d d' : BlockDecoder} {fuel : Nat}

theorem safe_stream_bind {α : Type} {r : Except Fault α} {k : α → Except DecoderFault (Bool × BlockDecoder)}
    (h : ∀ a, r = .ok a → Safe (k a)) : Safe (stream r >>= k) := by
  cases hr : r with
  | error f =>
      intro hf
      cases hf
  | ok a => exact h a hr

theorem setCodeLength_eq {index : Nat} {length : UInt8} (h : index < symbolCount) :
    d.setCodeLength index length = .ok { d with codeLengths := d.codeLengths.set index length h } := dif_pos h

theorem codeLengthMap_lt {k index : Nat} (h : codeLengthMap[k]? = some index) : index < symbolCount := by
  have hall : ∀ x ∈ codeLengthMap, x < symbolCount := by decide
  exact hall index (List.mem_of_getElem? h)

theorem safe_of_data {more : Bool} (h : d.state = .data) : Safe (.ok (more, d)) := by
  change d.InBounds
  rw [InBounds, h]
  trivial

theorem processInitial_safe (h : d.InBounds) : Safe d.processInitial := by
  apply safe_stream_bind
  rintro ⟨ok, input⟩ -
  cases ok with
  | false => exact h
  | true => exact safe_stream_bind fun _ _ => safe_stream_bind fun _ _ => trivial

theorem processBlockType_safe (h : d.InBounds) : Safe d.processBlockType := by
  rw [processBlockType]
  cases d.type with
  | uncompressed =>
      apply safe_stream_bind
      rintro ⟨ok, input⟩ -
      cases ok with
      | false => exact h
      | true => exact safe_stream_bind fun _ _ => trivial
  | staticHuffman =>
      dsimp only
      generalize HuffmanTree.staticTree = tree
      exact safe_stream_bind fun mainTree _ => safe_of_data rfl
  | dynamicHuffman =>
      apply safe_stream_bind
      rintro ⟨ok, input⟩ -
      cases ok with
      | false => exact h
      | true =>
          apply safe_stream_bind
          rintro ⟨main, input₁⟩ hmain
          apply safe_stream_bind
          rintro ⟨distance, input₂⟩ hdistance
          apply safe_stream_bind
          rintro ⟨codeLength, input₃⟩ hcodeLength
          have hmain := Bitstream.read_lt hmain
          have hdistance := Bitstream.read_lt hdistance
          have hcodeLength := Bitstream.read_lt hcodeLength
          have hmap : codeLengthMap.length = 19 := rfl
          have hcount : symbolCount = 288 := rfl
          refine ⟨?_, ?_, ?_, ?_, ?_, ?_⟩ <;> dsimp only <;> omega
  | invalid => exact h

theorem finishCodeLengths_safe (hmain : 0 < d.mainSymbolCount) (hmainLe : d.mainSymbolCount ≤ symbolCount)
    (hdistance : 0 < d.distanceSymbolCount) (hdistanceLe : d.distanceSymbolCount ≤ symbolCount) :
    Safe d.finishCodeLengths :=
  safe_stream_bind fun _ _ => ⟨hmain, hmainLe, hdistance, hdistanceLe⟩

theorem readCodeLengths_safe (hstate : d.state = .codeLengths) (h : d.InBounds) : Safe (readCodeLengths fuel d) := by
  induction fuel generalizing d with
  | zero =>
      intro hf
      cases hf
  | succ fuel ih =>
      rw [InBounds, hstate] at h
      obtain ⟨hread, hcount, hmain, hmainLe, hdistance, hdistanceLe⟩ := h
      rw [readCodeLengths]
      apply safe_stream_bind
      rintro ⟨ok, input⟩ -
      cases ok with
      | false =>
          change InBounds _
          rw [InBounds]
          dsimp only
          rw [hstate]
          exact ⟨hread, hcount, hmain, hmainLe, hdistance, hdistanceLe⟩
      | true =>
          dsimp only
          rw [if_pos rfl, List.getElem?_eq_getElem (hread.trans_le hcount)]
          apply safe_stream_bind
          rintro ⟨length, input⟩ -
          rw [setCodeLength_eq (codeLengthMap_lt (List.getElem?_eq_getElem (hread.trans_le hcount)))]
          change Safe (if d.codeLengthsRead + 1 = d.codeLengthSymbolCount then _ else _)
          split
          · exact finishCodeLengths_safe hmain hmainLe hdistance hdistanceLe
          · refine ih hstate ?_
            rw [InBounds]
            dsimp only
            rw [hstate]
            exact ⟨by omega, hcount, hmain, hmainLe, hdistance, hdistanceLe⟩

theorem processCodeLengths_safe (hstate : d.state = .codeLengths) (h : d.InBounds) :
    Safe (d.processCodeLengths fuel) := by
  apply safe_stream_bind
  rintro ⟨ok, input⟩ -
  cases ok with
  | false => exact h
  | true => exact readCodeLengths_safe hstate h

/-- One of the stages that read a tree. -/
def InTree (d : BlockDecoder) : Prop := d.state = .mainTree ∨ d.state = .distanceTree

theorem InBounds.target (hstate : d.InTree) (h : d.InBounds) :
    d.codeLengthsRead < d.target ∧ d.target ≤ symbolCount := by
  rw [InBounds] at h
  rw [BlockDecoder.target]
  rcases hstate with hs | hs <;> rw [hs] at h ⊢
  · exact ⟨h.1, h.2.1⟩
  · exact h

theorem InBounds.next (hstate : d.InTree) (h : d.InBounds) (hd : d'.state = d.state)
    (hm : d'.mainSymbolCount = d.mainSymbolCount) (hs : d'.distanceSymbolCount = d.distanceSymbolCount)
    (hread : d'.codeLengthsRead < d.target) : d'.InBounds := by
  rw [InBounds] at h ⊢
  rw [BlockDecoder.target] at hread
  rw [hd, hm, hs]
  rcases hstate with hst | hst <;> rw [hst] at h hread ⊢
  · exact ⟨hread, h.2⟩
  · exact ⟨hread, h.2⟩

theorem finishTree_safe (hdistance : d.state = .mainTree →
      0 < d.distanceSymbolCount ∧ d.distanceSymbolCount ≤ symbolCount) :
    Safe d.finishTree := by
  refine safe_stream_bind fun tree _ => ?_
  dsimp only
  split
  · exact hdistance ‹_›
  · trivial

theorem InBounds.finishTree (h : d.InBounds) (hd : d'.state = d.state)
    (hs : d'.distanceSymbolCount = d.distanceSymbolCount) : Safe d'.finishTree := by
  apply finishTree_safe
  intro hmain
  rw [hd] at hmain
  rw [InBounds, hmain] at h
  rw [hs]
  exact h.2.2

theorem readTree_safe (hstate : d.InTree) (h : d.InBounds) : Safe (readTree fuel d) := by
  induction fuel generalizing d with
  | zero =>
      intro hf
      cases hf
  | succ fuel ih =>
      obtain ⟨hread, hle⟩ := h.target hstate
      rw [readTree]
      apply safe_stream_bind
      rintro ⟨ok, input⟩ -
      cases ok with
      | false => exact h
      | true =>
          apply safe_stream_bind
          rintro ⟨bit, input⟩ -
          dsimp only
          cases d.huffmanState with
          | none =>
              intro hf
              cases hf
          | some node =>
              dsimp only
              cases d.codeLengthTree.child node (bit ≠ 0) with
              | none => exact h
              | some next =>
                  dsimp only
                  split
                  · rw [setCodeLength_eq (hread.trans_le hle)]
                    change Safe (if d.codeLengthsRead + 1 = d.target then _ else _)
                    split
                    · exact h.finishTree rfl rfl
                    · exact ih hstate (h.next hstate rfl rfl rfl (show d.codeLengthsRead + 1 < _ by omega))
                  · exact ih hstate h

theorem processTree_safe (hstate : d.InTree) (h : d.InBounds) : Safe (d.processTree fuel) := by
  apply safe_stream_bind
  rintro ⟨ok, input⟩ -
  cases ok with
  | false => exact h
  | true => exact readTree_safe hstate h

/-- What the data stage does: it leaves the array of code lengths alone, and the block is in
its data, at its end or not yet begun after it. -/
structure IsDataStage (processData : BlockDecoder → Except DecoderFault (Bool × BlockDecoder)) : Prop where
  noOverrun : ∀ d, processData d ≠ .error .codeLengthsOverrun
  state : ∀ d more d', processData d = .ok (more, d') → d'.state = .data ∨ d'.state = .ended ∨ d'.state = .initial

variable {processData : BlockDecoder → Except DecoderFault (Bool × BlockDecoder)}

theorem process_safe (hdata : IsDataStage processData) (h : d.InBounds) (fuel : Nat) :
    Safe (d.process processData fuel) := by
  rw [process]
  cases hstate : d.state with
  | initial => exact processInitial_safe h
  | haveBlockType => exact processBlockType_safe h
  | codeLengths => exact processCodeLengths_safe hstate h
  | mainTree => exact processTree_safe (.inl hstate) h
  | distanceTree => exact processTree_safe (.inr hstate) h
  | data =>
      dsimp only
      cases hd : processData d with
      | error f =>
          rintro rfl
          exact hdata.noOverrun d hd
      | ok r =>
          obtain ⟨more, d'⟩ := r
          change d'.InBounds
          rw [InBounds]
          rcases hdata.state d more d' hd with hs | hs | hs <;> rw [hs] <;> trivial
  | ended => exact h

/-- Calls of `process`, with new input between them. -/
inductive Session (processData : BlockDecoder → Except DecoderFault (Bool × BlockDecoder)) (d : BlockDecoder) :
    BlockDecoder → Prop
  | refl : Session processData d d
  | process {d₁ d₂ : BlockDecoder} {fuel : Nat} {more : Bool} :
      Session processData d d₁ → d₁.process processData fuel = .ok (more, d₂) → Session processData d d₂
  | setInput {d₁ : BlockDecoder} (input : Bitstream) :
      Session processData d d₁ → Session processData d { d₁ with input }

theorem Session.inBounds (hdata : IsDataStage processData) (h : d.InBounds) (hs : Session processData d d') :
    d'.InBounds := by
  induction hs with
  | refl => exact h
  | @process d₁ d₂ fuel more _ hp ih =>
      have hsafe := process_safe hdata ih fuel
      rw [hp] at hsafe
      exact hsafe
  | setInput input _ ih => exact ih

theorem Session.process_ne_overrun (hdata : IsDataStage processData) (hstate : d.state = .initial)
    (hs : Session processData d d') : d'.process processData fuel ≠ .error .codeLengthsOverrun := by
  have hinit : d.InBounds := by
    rw [InBounds, hstate]
    trivial
  have hsafe := process_safe hdata (hs.inBounds hdata hinit) fuel
  intro hp
  rw [hp] at hsafe
  exact hsafe rfl

end BlockDecoder

end XviOs.Deflate
