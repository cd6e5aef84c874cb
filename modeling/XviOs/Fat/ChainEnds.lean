import XviOs.Library.Walk
import XviOs.Fat.FreeCluster

namespace XviOs.Fat

open Library.Walk

/-- No access to the device fails. -/
def BlockDev.Faultless (d : BlockDev) : Prop := ∀ lba, d.readFails lba = false ∧ d.writeFails lba = false

namespace Filesystem

variable {fs : Filesystem} {d d' : BlockDev} {a c v fuel i : Nat}

/-- The cluster that `readClusterChain` goes on to. It stops at an end mark, and at the
marks of a bad and of a free cluster. -/
def readLink (fs : Filesystem) (d : BlockDev) (c : Nat) : Option Nat :=
  match fs.getFATEntry d c with
  | .ok next =>
      if fs.isBadClusterMark next || fs.isFreeClusterMark next || fs.isEndOfChain next then none else some next
  | .error _ => none

/-- The cluster that `freeClusterChain` goes on to. It stops at an end mark only. -/
def freeLink (fs : Filesystem) (d : BlockDev) : Nat → Option Nat :=
  entryStep (fun v => fs.isEndOfChain v = true) (fs.entry d)

theorem deref_ne_endless {α : Type} (x : Option α) : deref x ≠ .error .endless := by
  cases x <;> simp [deref]

theorem bind_ne_endless {α β : Type} {x : Except Fault α} {f : α → Except Fault β} (hx : x ≠ .error .endless)
    (hf : ∀ a, f a ≠ .error .endless) : x >>= f ≠ .error .endless := by
  cases x with
  | error e => exact fun h => hx (congrArg Except.error (Except.error.inj h))
  | ok a => exact hf a

theorem getFATEntry_ne_endless (fs : Filesystem) (d : BlockDev) (c : Nat) :
    fs.getFATEntry d c ≠ .error .endless := by
  have hpure {α : Type} (a : α) : (pure a : Except Fault α) ≠ .error .endless := fun h => by cases h
  have hread {α : Type} (lba : Nat) (f : Library.LittleEndian.Bytes → Except Fault α)
      (hf : ∀ b, f b ≠ .error .endless) : (deref (d.readBlock lba) >>= f) ≠ .error .endless :=
    bind_ne_endless (deref_ne_endless _) hf
  refine bind_ne_endless ?_ (fun raw => hpure _)
  rw [getFATEntryRaw]
  cases fs.type with
  | fat12 =>
      dsimp only
      split
      · exact hread _ _ (fun _ => hread _ _ (fun _ => bind_ne_endless (hpure _) (fun _ => hpure _)))
      · exact hread _ _ (fun _ => bind_ne_endless (hpure _) (fun _ => hpure _))
  | fat16 => exact hread _ _ (fun _ => hpure _)
  | fat32 => exact hread _ _ (fun _ => hpure _)

theorem getFATEntry_lt (h : fs.getFATEntry d c = .ok v) : v < 2 ^ 28 := by
  rw [getFATEntry] at h
  cases hraw : fs.getFATEntryRaw d c with
  | error e =>
      rw [hraw] at h
      cases h
  | ok raw =>
      rw [hraw] at h
      obtain rfl := Except.ok.inj h
      exact lt_of_le_of_lt Nat.and_le_right (by decide)

/-! ## Reading -/

section Read

variable {α : Type} {f : Nat → Nat → α → α} {s : α}

/-- The walk with a callback that always asks for more. -/
def readAll (fs : Filesystem) (d : BlockDev) (f : Nat → Nat → α → α) : (fuel index cluster : Nat) → α → Except Fault α :=
  fs.readClusterChain (fun _ => d) (fun index cluster s => .ok (true, f index cluster s))

theorem readAll_of_link (h : fs.readLink d c = some v) :
    fs.readAll d f (fuel + 1) i c s = fs.readAll d f fuel (i + 1) v (f i c s) := by
  rw [readLink] at h
  rw [readAll, readClusterChain]
  cases hentry : fs.getFATEntry d c with
  | error e =>
      rw [hentry] at h
      cases h
  | ok next =>
      rw [hentry] at h
      dsimp only at h
      by_cases hmark : (fs.isBadClusterMark next || fs.isFreeClusterMark next || fs.isEndOfChain next) = true
      · rw [if_pos hmark] at h
        cases h
      · rw [if_neg hmark] at h
        obtain rfl := Option.some.inj h
        rw [Bool.or_eq_true, Bool.or_eq_true, not_or, not_or] at hmark
        obtain ⟨⟨hb, hf⟩, he⟩ := hmark
        change (if fs.isBadClusterMark next = true then _ else _) = _
        rw [if_neg hb, if_neg hf]
        change (if fs.isEndOfChain next = true then _ else _) = _
        rw [if_neg he]

theorem readAll_of_stop (h : fs.readLink d c = none) : fs.readAll d f (fuel + 1) i c s ≠ .error .endless := by
  rw [readLink] at h
  rw [readAll, readClusterChain]
  cases hentry : fs.getFATEntry d c with
  | error e =>
      intro he
      obtain rfl : e = .endless := Except.error.inj he
      exact getFATEntry_ne_endless fs d c hentry
  | ok next =>
      rw [hentry] at h
      dsimp only at h
      change (if fs.isBadClusterMark next = true then _ else _) ≠ _
      cases hb : fs.isBadClusterMark next with
      | true => simp [pure, Except.pure]
      | false =>
          cases hf : fs.isFreeClusterMark next with
          | true => simp [pure, Except.pure]
          | false =>
              have he : fs.isEndOfChain next = true := by
                by_contra he
                rw [hb, hf, if_neg (by simpa using he)] at h
                cases h
              simp [he, bind, Except.bind, pure, Except.pure]

theorem readAll_ends_iff :
    (∃ fuel, fs.readAll d f fuel i c s ≠ .error .endless) ↔ Ends (fs.readLink d) c := by
  constructor
  · rintro ⟨fuel, h⟩
    induction fuel generalizing i c s with
    | zero => exact absurd rfl h
    | succ fuel ih =>
        cases hlink : fs.readLink d c with
        | none => exact .stop hlink
        | some v =>
            rw [readAll_of_link hlink] at h
            exact .step hlink (ih h)
  · intro h
    induction h generalizing i s with
    | stop hn => exact ⟨1, readAll_of_stop hn⟩
    | step hn _ ih =>
        obtain ⟨fuel, hfuel⟩ := ih
        refine ⟨fuel + 1, ?_⟩
        rw [readAll_of_link hn]
        exact hfuel

end Read

/-! ## Freeing -/

theorem entry_update (h : Library.BitField.FieldSet (fs.fat d) (fs.fat d') (fs.type.entryBits * c) fs.type.clusterBits v) :
    fs.entry d' = Function.update (fs.entry d) c (v &&& fs.clusterMask) := by
  funext c'
  by_cases hne : c' = c
  · rw [hne, Function.update_self, and_clusterMask]
    exact h.field_self
  · have := disjoint_entries fs hne
    have := clusterBits_le fs
    rw [Function.update_of_ne hne]
    exact h.field_of_disjoint (by omega)

theorem not_isEndOfChain_zero (fs : Filesystem) : fs.isEndOfChain 0 = false := by
  unfold isEndOfChain clusterMask
  cases fs.type <;> decide

/-- One step of the freeing, on a device without faults. -/
theorem freeClusterChain_succ (hl : fs.Layout) (hd : d.Faultless) (hc : c < 2 ^ 28) :
    ∃ d', d'.Faultless ∧ fs.entry d' = Function.update (fs.entry d) c 0 ∧
      ∀ fuel, fs.freeClusterChain (fuel + 1) d c =
        if fs.isEndOfChain (fs.entry d c) then .ok d' else fs.freeClusterChain fuel d' (fs.entry d c) := by
  have hr : fs.WordReads d c := ⟨(hd _).1, (hd _).1⟩
  refine ⟨fs.writeWord d c (fs.updateWord c (fs.word d c) 0), ?_, ?_, fun fuel => ?_⟩
  · intro lba
    rw [writeWord_readFails, writeWord_writeFails]
    exact hd lba
  · have hset : Library.BitField.FieldSet (fs.fat d) (fs.fat (fs.writeWord d c (fs.updateWord c (fs.word d c) 0)))
        (fs.type.entryBits * c) fs.type.clusterBits 0 :=
      fieldSet_writeWord hl (hd (fs.wordSector c)).2 (hd (fs.wordSector' c)).2
    have hentry := entry_update hset
    rwa [Nat.zero_and] at hentry
  · rw [freeClusterChain, getFATEntry_ok hl hc hr, show freeClusterMark &&& fs.clusterMask = 0 from Nat.zero_and _]
    change (fs.writeClusterChainLink d c 0).bind _ = _
    rw [writeClusterChainLink_eq hl hc hr]
    rfl

theorem freeLink_of_end (h : fs.isEndOfChain (fs.entry d c) = true) : fs.freeLink d c = none := if_pos h

theorem freeLink_of_not_end (h : ¬ fs.isEndOfChain (fs.entry d c) = true) : fs.freeLink d c = some (fs.entry d c) :=
  if_neg h

theorem entry_lt_28 (fs : Filesystem) (d : BlockDev) (c : Nat) : fs.entry d c < 2 ^ 28 := by
  have hlt : fs.entry d c < 2 ^ fs.type.clusterBits := Library.BitField.field_lt _ _ _
  have hle : 2 ^ fs.type.clusterBits ≤ 2 ^ 28 := by cases fs.type <;> decide
  exact hlt.trans_le hle

theorem freeLink_update (h : fs.entry d' = Function.update (fs.entry d) c 0) :
    fs.freeLink d' = entryStep (fun v => fs.isEndOfChain v = true) (Function.update (fs.entry d) c 0) := by
  rw [freeLink, h]

/-- A freeing that ends has followed the links to an end mark, or has come to a cluster
that it had freed before, and has gone on from cluster 0. -/
theorem ends_of_free (hl : fs.Layout) (hd : d.Faultless) (hc : c < 2 ^ 28)
    (h : fs.freeClusterChain fuel d c ≠ .error .endless) : Ends (fs.freeLink d) c ∨ Ends (fs.freeLink d) 0 := by
  induction fuel generalizing d c with
  | zero => exact absurd rfl h
  | succ fuel ih =>
      obtain ⟨d', hd', hentry, hstep⟩ := freeClusterChain_succ hl hd hc
      by_cases hend : fs.isEndOfChain (fs.entry d c) = true
      · exact .inl (.stop (freeLink_of_end hend))
      · rw [hstep fuel, if_neg hend] at h
        have hz : ¬ fs.isEndOfChain 0 = true := by simp [not_isEndOfChain_zero]
        have hback {x : Nat} (hx : Ends (fs.freeLink d') x) : Ends (fs.freeLink d) x ∨ Ends (fs.freeLink d) 0 := by
          rw [freeLink_update hentry] at hx
          exact hx.of_reset hz
        have hrest : Ends (fs.freeLink d) (fs.entry d c) ∨ Ends (fs.freeLink d) 0 :=
          (ih hd' (entry_lt_28 fs d c) h).elim hback (fun h0 => (hback h0).elim .inr .inr)
        exact hrest.imp (fun hx => .step (freeLink_of_not_end hend) hx) id

/-- The clusters whose entries are not free. -/
def usedEntries (fs : Filesystem) (d : BlockDev) : Finset Nat := (Finset.range (2 ^ 28)).filter (fun c => fs.entry d c ≠ 0)

theorem usedEntries_update (h : fs.entry d' = Function.update (fs.entry d) c 0) (hc : c < 2 ^ 28)
    (hne : fs.entry d c ≠ 0) : (fs.usedEntries d').card < (fs.usedEntries d).card := by
  apply Finset.card_lt_card
  refine Finset.ssubset_iff_subset_ne.mpr ⟨?_, ?_⟩
  · intro x hx
    simp only [usedEntries, Finset.mem_filter, h] at hx ⊢
    refine ⟨hx.1, ?_⟩
    by_cases hxc : x = c
    · rwa [hxc]
    · have := hx.2
      rwa [Function.update_of_ne hxc] at this
  · intro heq
    have hmem : c ∈ fs.usedEntries d' := by
      rw [heq]
      simpa [usedEntries] using ⟨hc, hne⟩
    simp [usedEntries, h] at hmem

/-- The freeing of a cluster in use goes on with fewer clusters in use. -/
theorem free_of_used (hl : fs.Layout) (hd : d.Faultless) (hc : c < 2 ^ 28) (hne : fs.entry d c ≠ 0)
    (h : Ends (fs.freeLink d) c ∨ Ends (fs.freeLink d) 0)
    (ih : ∀ d' c', d'.Faultless → c' < 2 ^ 28 → (fs.usedEntries d').card < (fs.usedEntries d).card →
      Ends (fs.freeLink d') c' ∨ Ends (fs.freeLink d') 0 →
        ∃ fuel, fs.freeClusterChain fuel d' c' ≠ .error .endless) :
    ∃ fuel, fs.freeClusterChain fuel d c ≠ .error .endless := by
  obtain ⟨d', hd', hentry, hstep⟩ := freeClusterChain_succ hl hd hc
  by_cases hend : fs.isEndOfChain (fs.entry d c) = true
  · exact ⟨1, by rw [hstep 0, if_pos hend]; simp⟩
  · have hlink := freeLink_of_not_end hend
    have hforward {x : Nat} (hx : Ends (fs.freeLink d) x)
        (hnot : ¬ Relation.ReflTransGen (Step (fs.freeLink d)) x c) : Ends (fs.freeLink d') x := by
      rw [freeLink_update hentry]
      exact hx.reset hnot
    have hrest : Ends (fs.freeLink d') (fs.entry d c) ∨ Ends (fs.freeLink d') 0 := by
      by_cases hself : Ends (fs.freeLink d) c
      · refine .inl (hforward (hself.of_reach (.single hlink)) fun hback => ?_)
        exact hself.not_cycle (.head' hlink hback)
      · have h0 := h.resolve_left hself
        exact .inr (hforward h0 fun hback => hself (h0.of_reach hback))
    obtain ⟨fuel, hfuel⟩ := ih d' (fs.entry d c) hd' (entry_lt_28 fs d c) (usedEntries_update hentry hc hne) hrest
    exact ⟨fuel + 1, by rwa [hstep fuel, if_neg hend]⟩

/-- Where the links lead from the cluster, or from cluster 0, to an end mark, the freeing
ends: each step but the last one frees an entry that was in use, or goes to cluster 0. -/
theorem free_of_ends (hl : fs.Layout) (hd : d.Faultless) (hc : c < 2 ^ 28)
    (h : Ends (fs.freeLink d) c ∨ Ends (fs.freeLink d) 0) :
    ∃ fuel, fs.freeClusterChain fuel d c ≠ .error .endless := by
  induction hn : (fs.usedEntries d).card using Nat.strong_induction_on generalizing d c with
  | _ n ih =>
      have hfewer (d₁ : BlockDev) (hsame : (fs.usedEntries d₁).card = n) (d' : BlockDev) (c' : Nat)
          (hd' : d'.Faultless) (hc' : c' < 2 ^ 28) (hlt : (fs.usedEntries d').card < (fs.usedEntries d₁).card)
          (h' : Ends (fs.freeLink d') c' ∨ Ends (fs.freeLink d') 0) :
          ∃ fuel, fs.freeClusterChain fuel d' c' ≠ .error .endless :=
        ih _ (hsame ▸ hlt) hd' hc' h' rfl
      by_cases hne : fs.entry d c = 0
      · -- the entry is free, and the links go on from cluster 0
        have hend : ¬ fs.isEndOfChain (fs.entry d c) = true := by simp [hne, not_isEndOfChain_zero]
        have hlink : fs.freeLink d c = some 0 := (freeLink_of_not_end hend).trans (congrArg some hne)
        have h0 : Ends (fs.freeLink d) 0 := h.elim (fun hx => hx.of_reach (.single hlink)) id
        obtain ⟨d', hd', hentry, hstep⟩ := freeClusterChain_succ hl hd hc
        have hsame : fs.entry d' = fs.entry d := by rw [hentry, ← hne, Function.update_eq_self]
        have hlinks : fs.freeLink d' = fs.freeLink d := by rw [freeLink, freeLink, hsame]
        have hused : fs.usedEntries d' = fs.usedEntries d := by rw [usedEntries, usedEntries, hsame]
        have hne0 : fs.entry d' 0 ≠ 0 := by
          intro hz
          rw [hsame] at hz
          have hself : fs.freeLink d 0 = some 0 :=
            (freeLink_of_not_end (by simp [hz, not_isEndOfChain_zero])).trans (congrArg some hz)
          exact h0.not_cycle (.single hself)
        rw [← hlinks] at h0
        have hcard : (fs.usedEntries d').card = n := by rw [hused, hn]
        obtain ⟨fuel, hfuel⟩ := free_of_used hl hd' (Nat.two_pow_pos 28) hne0 (.inl h0) (hfewer d' hcard)
        exact ⟨fuel + 1, by rwa [hstep fuel, if_neg hend, hne]⟩
      · exact free_of_used hl hd hc hne h (hfewer d hn)

theorem free_ends_iff (hl : fs.Layout) (hd : d.Faultless) (hc : c < 2 ^ 28) :
    (∃ fuel, fs.freeClusterChain fuel d c ≠ .error .endless) ↔
      Ends (fs.freeLink d) c ∨ Ends (fs.freeLink d) 0 :=
  ⟨fun ⟨_, h⟩ => ends_of_free hl hd hc h, free_of_ends hl hd hc⟩

theorem finite_links (fs : Filesystem) (d : BlockDev) :
    {b | ∃ a, fs.readLink d a = some b}.Finite ∧ {b | ∃ a, fs.freeLink d a = some b}.Finite := by
  have hbound : (Set.Iio (2 ^ 28) : Set Nat).Finite := Set.finite_Iio _
  refine ⟨hbound.subset ?_, hbound.subset ?_⟩
  · rintro b ⟨a, ha⟩
    rw [readLink] at ha
    cases hentry : fs.getFATEntry d a with
    | error e =>
        rw [hentry] at ha
        cases ha
    | ok v =>
        rw [hentry] at ha
        dsimp only at ha
        split at ha
        · cases ha
        · obtain rfl := Option.some.inj ha
          exact getFATEntry_lt hentry
  · rintro b ⟨a, ha⟩
    rw [freeLink, entryStep] at ha
    split at ha
    · cases ha
    · obtain rfl := Option.some.inj ha
      exact entry_lt_28 fs d a

theorem exists_of_bind_ok {α β : Type} {x : Except Fault α} {f : α → Except Fault β} {r : β} (h : x >>= f = .ok r) :
    ∃ a, x = .ok a ∧ f a = .ok r := by
  cases x with
  | error e => cases h
  | ok a => exact ⟨a, rfl, h⟩

/-- A write of a link to a device without faults leaves one, whatever the cluster. -/
theorem writeClusterChainLink_faultless (hd : d.Faultless) (h : fs.writeClusterChainLink d c v = .ok d') :
    d'.Faultless := by
  have hwrite {d : BlockDev} (hd : d.Faultless) (lba : Nat) (data : Library.LittleEndian.Bytes) :
      (d.writeBack lba data).Faultless := by
    intro x
    rw [BlockDev.writeBack_readFails, BlockDev.writeBack_writeFails]
    exact hd x
  rw [writeClusterChainLink] at h
  cases ht : fs.type with
  | fat12 =>
      rw [ht] at h
      dsimp only at h
      split at h
      · obtain ⟨first, -, h⟩ := exists_of_bind_ok h
        obtain ⟨second, -, h⟩ := exists_of_bind_ok h
        obtain rfl := Except.ok.inj h
        exact hwrite (hwrite hd _ _) _ _
      · obtain ⟨data, -, h⟩ := exists_of_bind_ok h
        obtain rfl := Except.ok.inj h
        exact hwrite hd _ _
  | fat16 =>
      rw [ht] at h
      obtain ⟨data, -, h⟩ := exists_of_bind_ok h
      obtain rfl := Except.ok.inj h
      exact hwrite hd _ _
  | fat32 =>
      rw [ht] at h
      obtain ⟨data, -, h⟩ := exists_of_bind_ok h
      obtain rfl := Except.ok.inj h
      exact hwrite hd _ _

theorem writeClusterChainLink_ne_endless (fs : Filesystem) (d : BlockDev) (c v : Nat) :
    fs.writeClusterChainLink d c v ≠ .error .endless := by
  have hpure {α : Type} (a : α) : (pure a : Except Fault α) ≠ .error .endless := fun h => by cases h
  have hread {α : Type} (lba : Nat) (f : Library.LittleEndian.Bytes → Except Fault α)
      (hf : ∀ b, f b ≠ .error .endless) : (deref (d.readBlock lba) >>= f) ≠ .error .endless :=
    bind_ne_endless (deref_ne_endless _) hf
  rw [writeClusterChainLink]
  cases fs.type with
  | fat12 =>
      dsimp only
      split
      · exact hread _ _ (fun _ => hread _ _ (fun _ => hpure _))
      · exact hread _ _ (fun _ => hpure _)
  | fat16 => exact hread _ _ (fun _ => hpure _)
  | fat32 => exact hread _ _ (fun _ => hpure _)

/-- The freeing from any cluster, also one that no table has room for: its first step,
and the rest from what its entry held. -/
theorem free_any_ends_iff (hl : fs.Layout) (hd : d.Faultless) (c : Nat) :
    (∃ fuel, fs.freeClusterChain fuel d c ≠ .error .endless) ↔
      ∀ v d', fs.getFATEntry d c = .ok v →
        fs.writeClusterChainLink d c (freeClusterMark &&& fs.clusterMask) = .ok d' →
          fs.isEndOfChain v = true ∨ Ends (fs.freeLink d') v ∨ Ends (fs.freeLink d') 0 := by
  have hstep (fuel v : Nat) (d' : BlockDev) (hv : fs.getFATEntry d c = .ok v)
      (hd' : fs.writeClusterChainLink d c (freeClusterMark &&& fs.clusterMask) = .ok d') :
      fs.freeClusterChain (fuel + 1) d c =
        if fs.isEndOfChain v = true then .ok d' else fs.freeClusterChain fuel d' v := by
    rw [freeClusterChain, hv]
    change (fs.writeClusterChainLink d c _).bind _ = _
    rw [hd']
    rfl
  constructor
  · rintro ⟨fuel, h⟩ v d' hv hd'
    by_cases hend : fs.isEndOfChain v = true
    · exact .inl hend
    · cases fuel with
      | zero => exact absurd rfl h
      | succ fuel =>
          rw [hstep fuel v d' hv hd', if_neg hend] at h
          exact .inr (ends_of_free hl (writeClusterChainLink_faultless hd hd') (getFATEntry_lt hv) h)
  · intro h
    cases hv : fs.getFATEntry d c with
    | error e =>
        refine ⟨1, ?_⟩
        rw [freeClusterChain, hv]
        intro he
        obtain rfl : e = .endless := Except.error.inj he
        exact getFATEntry_ne_endless fs d c hv
    | ok v =>
        cases hd' : fs.writeClusterChainLink d c (freeClusterMark &&& fs.clusterMask) with
        | error e =>
            refine ⟨1, ?_⟩
            rw [freeClusterChain, hv]
            change (fs.writeClusterChainLink d c _).bind _ ≠ _
            rw [hd']
            intro he
            obtain rfl : e = .endless := Except.error.inj he
            exact writeClusterChainLink_ne_endless fs d c _ hd'
        | ok d' =>
            rcases h v d' hv hd' with hend | hrest
            · exact ⟨1, by rw [hstep 0 v d' hv hd', if_pos hend]; simp⟩
            · by_cases hend : fs.isEndOfChain v = true
              · exact ⟨1, by rw [hstep 0 v d' hv hd', if_pos hend]; simp⟩
              · obtain ⟨fuel, hfuel⟩ :=
                  free_of_ends hl (writeClusterChainLink_faultless hd hd') (getFATEntry_lt hv) hrest
                exact ⟨fuel + 1, by rwa [hstep fuel v d' hv hd', if_neg hend]⟩

/-- A walk along a chain ends exactly if the links do not run into a cycle. The freeing
of a chain ends exactly if this holds of the links from its first cluster or of those
from cluster 0, where it goes on when it comes to a cluster that it has freed. -/
theorem chain_walks_end_iff {α : Type} (hl : fs.Layout) (hd : d.Faultless) (f : Nat → Nat → α → α) (s : α) :
    (∀ c, (∃ fuel, fs.readAll d f fuel 0 c s ≠ .error .endless) ↔ ¬ RunsIntoCycle (fs.readLink d) c) ∧
      (∀ c < 2 ^ 28, (∃ fuel, fs.freeClusterChain fuel d c ≠ .error .endless) ↔
        ¬ RunsIntoCycle (fs.freeLink d) c ∨ ¬ RunsIntoCycle (fs.freeLink d) 0) ∧
      ∀ c, (∃ fuel, fs.freeClusterChain fuel d c ≠ .error .endless) ↔
        ∀ v d', fs.getFATEntry d c = .ok v →
          fs.writeClusterChainLink d c (freeClusterMark &&& fs.clusterMask) = .ok d' →
            fs.isEndOfChain v = true ∨ ¬ RunsIntoCycle (fs.freeLink d') v ∨ ¬ RunsIntoCycle (fs.freeLink d') 0 := by
  obtain ⟨hread, hfree⟩ := finite_links fs d
  refine ⟨fun c => ?_, fun c hc => ?_, fun c => ?_⟩
  · rw [readAll_ends_iff, ends_iff hread]
  · rw [free_ends_iff hl hd hc, ends_iff hfree, ends_iff hfree]
  · simp only [free_any_ends_iff hl hd, ends_iff (finite_links fs _).2]

/-! ## A cluster that links to itself -/

/-- A device whose FAT12 says that cluster 2 follows cluster 2, and that cluster 0 follows
cluster 0. -/
def looped : BlockDev := { BlockDev.blank with blocks := fun lba x => if lba = 1 ∧ x = 3 then 2 else 0 }

theorem faultless_looped : looped.Faultless := fun _ => ⟨rfl, rfl⟩

theorem chain_walks_end_iff_looped : ¬ ∃ fuel,
    (small .fat12).readAll looped (fun _ _ s => s) fuel 0 2 () ≠ .error .endless := by
  have h := (chain_walks_end_iff (layout_small .fat12) faultless_looped (fun _ _ s => s) ()).1 2
  have hlink : (small .fat12).readLink looped 2 = some 2 := by decide +kernel
  intro hends
  exact h.mp hends ⟨2, .refl, .single hlink⟩

theorem chain_walks_endless :
    ¬ ∀ (fs : Filesystem) (d : BlockDev) (c : Nat), fs.Layout → d.Faultless →
      (∃ fuel, fs.readAll d (fun _ _ s => s) fuel 0 c () ≠ .error .endless) ∧
        ∃ fuel, fs.freeClusterChain fuel d c ≠ .error .endless := by
  intro hall
  have hlink : (small .fat12).freeLink looped 2 = some 2 := by decide +kernel
  have hlink0 : (small .fat12).freeLink looped 0 = some 0 := by decide +kernel
  obtain ⟨-, hfree⟩ := hall (small .fat12) looped 2 (layout_small .fat12) faultless_looped
  have hends := (free_ends_iff (layout_small .fat12) faultless_looped (by decide)).mp hfree
  rcases hends with h2 | h0
  · exact h2.not_cycle (.single hlink)
  · exact h0.not_cycle (.single hlink0)

end Filesystem

end XviOs.Fat
