import XviOs.Library.Chain
import XviOs.Fat.FreeCluster

namespace XviOs.Fat.Filesystem

open Library.Chain

variable {fs : Filesystem} {d d' : BlockDev} {a b c n i fuel : Nat} {l l' : List Nat}

/-! ## Cluster numbers and marks -/

/-- The number of a data cluster. -/
def IsCluster (fs : Filesystem) (c : Nat) : Prop := 2 ≤ c ∧ c < fs.clusterCount + 2

instance : Decidable (fs.IsCluster c) := inferInstanceAs (Decidable (_ ∧ _))

theorem marks (fs : Filesystem) :
    endOfChain &&& fs.clusterMask = (badClusterMark &&& fs.clusterMask) + 1 ∧
      endOfChain &&& fs.clusterMask < 2 ^ fs.type.clusterBits := by
  unfold clusterMask
  cases fs.type <;> decide

theorem and_clusterMask_of_lt (h : c < 2 ^ fs.type.clusterBits) : c &&& fs.clusterMask = c := by
  rw [and_clusterMask, Nat.mod_eq_of_lt h]

namespace IsCluster

theorem lt_bad (h : fs.IsCluster c) (hl : fs.Layout) : c < badClusterMark &&& fs.clusterMask := by
  have := hl.numbers
  have := h.2
  omega

theorem and_mask (h : fs.IsCluster c) (hl : fs.Layout) : c &&& fs.clusterMask = c := by
  have := h.lt_bad hl
  have := marks fs
  exact and_clusterMask_of_lt (by omega)

theorem not_endOfChain (h : fs.IsCluster c) (hl : fs.Layout) : fs.isEndOfChain c = false := by
  have := h.lt_bad hl
  have := marks fs
  rw [isEndOfChain, h.and_mask hl, decide_eq_false_iff_not]
  omega

theorem not_bad (h : fs.IsCluster c) (hl : fs.Layout) : fs.isBadClusterMark c = false := by
  have := h.lt_bad hl
  rw [isBadClusterMark, h.and_mask hl, beq_eq_false_iff_ne]
  omega

theorem not_free (h : fs.IsCluster c) (hl : fs.Layout) : fs.isFreeClusterMark c = false := by
  have := h.1
  rw [isFreeClusterMark, h.and_mask hl, beq_eq_false_iff_ne, freeClusterMark, Nat.zero_and]
  omega

end IsCluster

theorem endOfChain_not_bad (h : fs.isEndOfChain c = true) : fs.isBadClusterMark c = false := by
  have := marks fs
  rw [isEndOfChain, decide_eq_true_iff] at h
  rw [isBadClusterMark, beq_eq_false_iff_ne]
  omega

theorem endOfChain_not_free (h : fs.isEndOfChain c = true) : fs.isFreeClusterMark c = false := by
  have := marks fs
  rw [isEndOfChain, decide_eq_true_iff] at h
  rw [isFreeClusterMark, beq_eq_false_iff_ne, freeClusterMark, Nat.zero_and]
  omega

theorem isEndOfChain_endOfChain (fs : Filesystem) : fs.isEndOfChain (endOfChain &&& fs.clusterMask) = true := by
  rw [isEndOfChain, Nat.and_assoc, Nat.and_self, decide_eq_true_iff]

/-! ## Chains -/

/-- The chain from cluster `a` on consists of the data clusters `l`, and has an end mark. -/
structure Chain (fs : Filesystem) (d : BlockDev) (a : Nat) (l : List Nat) : Prop where
  links : ChainFrom (fs.entry d) (fun x => fs.isEndOfChain x = true) a l
  clusters : ∀ c ∈ l, fs.IsCluster c

namespace Chain

theorem tail (h : fs.Chain d a (b :: l)) (hl : l ≠ []) : fs.Chain d (fs.entry d a) l :=
  ⟨(h.links.uncons hl).2.2, fun c hc => h.clusters c (by simp [hc])⟩

theorem head_isCluster (h : fs.Chain d a l) : fs.IsCluster a := by
  obtain ⟨t, rfl⟩ := h.links.head
  exact h.clusters a (by simp)

theorem congr (h : fs.Chain d a l) (heq : ∀ c ∈ l, fs.entry d' c = fs.entry d c) : fs.Chain d' a l :=
  ⟨h.links.congr heq, h.clusters⟩

/-- The entry of a cluster of a chain is no bad mark and no free mark. -/
theorem entry_marks (h : fs.Chain d a l) (hl : fs.Layout) :
    fs.isBadClusterMark (fs.entry d a) = false ∧ fs.isFreeClusterMark (fs.entry d a) = false ∧
      fs.entry d a ≠ 0 := by
  have hne : fs.isFreeClusterMark (fs.entry d a) = false → fs.entry d a ≠ 0 := by
    intro hf h0
    rw [h0] at hf
    simp [isFreeClusterMark, freeClusterMark] at hf
  cases h.links with
  | last hs => exact ⟨endOfChain_not_bad hs, endOfChain_not_free hs, hne (endOfChain_not_free hs)⟩
  | cons hn ht =>
      have hc := (h.tail ht.ne_nil).head_isCluster
      exact ⟨hc.not_bad hl, hc.not_free hl, hne (hc.not_free hl)⟩

theorem entry_ne_zero (h : fs.Chain d a l) (hl : fs.Layout) (hc : c ∈ l) : fs.entry d c ≠ 0 := by
  obtain ⟨t, hlt, ht⟩ := h.links.of_mem hc
  have hsub : ∀ x ∈ t, fs.IsCluster x := fun x hx => h.clusters x (by rw [hlt]; simp [hx])
  exact (Chain.entry_marks ⟨ht, hsub⟩ hl).2.2

end Chain

/-- The entries of the clusters of `l` can be read from the device. -/
def Readable (fs : Filesystem) (d : BlockDev) (l : List Nat) : Prop := ∀ c ∈ l, fs.WordReads d c

/-- The entries of the clusters of `l` can be written to the device. -/
def Writable (fs : Filesystem) (d : BlockDev) (l : List Nat) : Prop :=
  ∀ c ∈ l, d.writeFails (fs.wordSector c) = false ∧ d.writeFails (fs.wordSector' c) = false

theorem Readable.frame (h : fs.Readable d l) (hf : fs.TableFrame d d') : fs.Readable d' l :=
  fun c hc => (wordReads_congr hf.reads).mpr (h c hc)

theorem Writable.frame (h : fs.Writable d l) (hf : fs.TableFrame d d') : fs.Writable d' l := by
  intro c hc
  rw [hf.writes]
  exact h c hc

theorem Chain.getFATEntry_eq (h : fs.Chain d a l) (hl : fs.Layout) (hr : fs.Readable d l) :
    fs.getFATEntry d a = .ok (fs.entry d a) := by
  obtain ⟨t, rfl⟩ := h.links.head
  exact getFATEntry_ok hl (hl.cluster_lt h.head_isCluster.2) (hr a (by simp))

/-! ## Walking along a chain -/

/-- The callback on the clusters of a list one after the other, until it asks to stop. -/
def visitChain {α : Type} (callback : Nat → Nat → α → Except Fault (Bool × α)) :
    Nat → List Nat → α → Except Fault α
  | _, [], s => .ok s
  | index, c :: l, s => do
      let r ← callback index c s
      if r.1 then visitChain callback (index + 1) l r.2 else return r.2

/-- The callback leaves the entries of the clusters of `l` as they are. -/
def KeepsLinks {α : Type} (fs : Filesystem) (device : α → BlockDev)
    (callback : Nat → Nat → α → Except Fault (Bool × α)) (l : List Nat) : Prop :=
  ∀ i c s r, callback i c s = .ok r → ∀ x ∈ l, fs.WordReads (device s) x →
    fs.WordReads (device r.2) x ∧ fs.entry (device r.2) x = fs.entry (device s) x

section Walk

variable {α : Type} {device : α → BlockDev} {callback : Nat → Nat → α → Except Fault (Bool × α)} {s : α}

/-- One step of the walk along a chain. -/
theorem readClusterChain_succ (hl : fs.Layout) (hr : fs.Readable (device s) l) (h : fs.Chain (device s) a l) :
    fs.readClusterChain device callback (fuel + 1) i a s =
      (do
        let r ← callback i a s
        if !r.1 then return r.2
        else if fs.isEndOfChain (fs.entry (device s) a) then return r.2
        else fs.readClusterChain device callback fuel (i + 1) (fs.entry (device s) a) r.2) := by
  obtain ⟨hb, hf, -⟩ := h.entry_marks hl
  rw [readClusterChain, h.getFATEntry_eq hl hr]
  change (if fs.isBadClusterMark (fs.entry (device s) a) = true then _ else _) = _
  rw [if_neg (by simp [hb]), if_neg (by simp [hf])]

theorem readClusterChain_chain (hl : fs.Layout) (hr : fs.Readable (device s) l) (h : fs.Chain (device s) a l)
    (hkeep : fs.KeepsLinks device callback l) (hfuel : l.length ≤ fuel) :
    fs.readClusterChain device callback fuel i a s = visitChain callback i l s := by
  induction fuel generalizing a l i s with
  | zero => exact absurd (List.length_eq_zero_iff.mp (by omega)) h.links.ne_nil
  | succ fuel ih =>
      rw [readClusterChain_succ hl hr h]
      have hall := h
      cases h.links with
      | last hs =>
          simp only [visitChain, hs, if_true]
          cases callback i a s with
          | error e => rfl
          | ok r => rcases r with ⟨_ | _, s'⟩ <;> rfl
      | @cons _ l hn ht =>
          have hrest : fs.KeepsLinks device callback l := fun i c s r hr x hx => hkeep i c s r hr x (by simp [hx])
          simp only [visitChain, hn]
          cases hc : callback i a s with
          | error e => rfl
          | ok r =>
              rcases r with ⟨_ | _, s'⟩
              · rfl
              · have hsame := fun x (hx : x ∈ l) => hrest i a s _ hc x hx (hr x (by simp [hx]))
                have hchain := (hall.tail ht.ne_nil).congr (fun x hx => (hsame x hx).2)
                exact ih (fun x hx => (hsame x hx).1) hchain hrest (by simpa using hfuel)

end Walk

/-- The walk for the `n`-th cluster comes to it, or to the end of the chain. -/
theorem nthChainEntry_walk (hl : fs.Layout) (hr : fs.Readable d l) (h : fs.Chain d a l) (k i e : Nat) :
    fs.readClusterChain (fun _ => d)
      (fun index value entry => .ok (if index = i + k then (false, value) else (true, entry))) (k + 1) i a e =
        .ok (l.getD k e) := by
  induction k generalizing a l i with
  | zero =>
      obtain ⟨t, rfl⟩ := h.links.head
      rw [readClusterChain_succ hl hr h]
      simp [bind, Except.bind, pure, Except.pure]
  | succ k ih =>
      have hall := h
      rw [readClusterChain_succ hl hr h, if_neg (by omega)]
      cases h.links with
      | last hs => simp [bind, Except.bind, pure, Except.pure, hs]
      | @cons _ l hn ht =>
          have hrest := ih (fun c hc => hr c (by simp [hc])) (hall.tail ht.ne_nil) (i + 1)
          rw [show i + 1 + k = i + (k + 1) by omega] at hrest
          simp [bind, Except.bind, hn, hrest]

theorem nthChainEntry_chain (hl : fs.Layout) (hr : fs.Readable d l) (h : fs.Chain d a l) (n : Nat) :
    fs.nthChainEntry d a n = .ok (l.getD n 0) := by
  have hwalk := nthChainEntry_walk hl hr h n 0 0
  rw [Nat.zero_add] at hwalk
  exact hwalk

/-! ## Freeing -/

theorem and_freeClusterMark (fs : Filesystem) : freeClusterMark &&& fs.clusterMask = 0 := Nat.zero_and _

theorem entry_eq_of_rawEntry (h : fs.rawEntry d' c = fs.rawEntry d c) : fs.entry d' c = fs.entry d c := by
  rw [← rawEntry_and_clusterMask, h, rawEntry_and_clusterMask]

theorem Chain.writeClusterChainLink_head (h : fs.Chain d a l) (hl : fs.Layout) (hr : fs.Readable d l)
    (hw : fs.Writable d l) (next : Nat) :
    ∃ d', fs.writeClusterChainLink d a next = .ok d' ∧ fs.LinkSet d d' a next := by
  obtain ⟨t, rfl⟩ := h.links.head
  have hread := hr a (by simp)
  obtain ⟨hwrite, hwrite'⟩ := hw a (by simp)
  have hc := h.head_isCluster.2
  exact ⟨_, writeClusterChainLink_eq hl (hl.cluster_lt hc) hread, linkSet_writeWord hl hc hwrite hwrite'⟩

/-- Freeing a chain frees its clusters, and leaves all the other entries as they are. -/
theorem freeClusterChain_chain (hl : fs.Layout) (hr : fs.Readable d l) (hw : fs.Writable d l) (h : fs.Chain d a l)
    (hfuel : l.length ≤ fuel) :
    ∃ d', fs.freeClusterChain fuel d a = .ok d' ∧ fs.TableFrame d d' ∧
      ∀ c, (c ∈ l → fs.entry d' c = 0) ∧ (c ∉ l → fs.rawEntry d' c = fs.rawEntry d c) := by
  induction fuel generalizing d a l with
  | zero => exact absurd (List.length_eq_zero_iff.mp (by omega)) h.links.ne_nil
  | succ fuel ih =>
      obtain ⟨d₁, hlink, hset⟩ := h.writeClusterChainLink_head hl hr hw 0
      have hstep : fs.freeClusterChain (fuel + 1) d a =
          if fs.isEndOfChain (fs.entry d a) then .ok d₁ else fs.freeClusterChain fuel d₁ (fs.entry d a) := by
        rw [freeClusterChain, h.getFATEntry_eq hl hr, and_freeClusterMark]
        change (fs.writeClusterChainLink d a 0).bind _ = _
        rw [hlink]
        rfl
      rw [hstep]
      have hself : fs.entry d₁ a = 0 := by
        rw [hset.entry_self, Nat.zero_and]
      have hall := h
      cases h.links with
      | last hs =>
          rw [if_pos hs]
          refine ⟨d₁, rfl, hset.frame, fun c => ⟨fun hc => ?_, fun hc => ?_⟩⟩
          · rw [List.mem_singleton.mp hc, hself]
          · exact hset.rawEntry_of_ne (fun hca => hc (hca ▸ List.mem_singleton_self a))
      | @cons _ l hn ht =>
          have hnotin : a ∉ l := (List.nodup_cons.mp hall.links.nodup).1
          have htail : fs.Chain d₁ (fs.entry d a) l := (hall.tail ht.ne_nil).congr
            (fun c hc => hset.entry_of_ne (fun hca => hnotin (hca ▸ hc)))
          have hr₁ : fs.Readable d₁ l := Readable.frame (fun c hc => hr c (by simp [hc])) hset.frame
          have hw₁ : fs.Writable d₁ l := Writable.frame (fun c hc => hw c (by simp [hc])) hset.frame
          obtain ⟨d', hfree, hframe, hent⟩ := ih hr₁ hw₁ htail (by simpa using hfuel)
          rw [if_neg hn]
          refine ⟨d', hfree, hset.frame.trans hframe, fun c => ⟨fun hc => ?_, fun hc => ?_⟩⟩
          · rcases List.mem_cons.mp hc with rfl | hc
            · -- the rest of the chain does not come back to the first cluster
              rw [entry_eq_of_rawEntry ((hent c).2 hnotin), hself]
            · exact (hent c).1 hc
          · have hcl : c ∉ l := fun hl => hc (List.mem_cons_of_mem a hl)
            have hca : c ≠ a := fun hca => hc (hca ▸ List.mem_cons_self)
            exact ((hent c).2 hcl).trans (hset.rawEntry_of_ne hca)

/-! ## A well-formed chain -/

theorem visitChain_record (l : List Nat) (i : Nat) (log : List (Nat × Nat)) :
    visitChain (fun index c log => .ok (true, log ++ [(index, c)])) i l log =
      .ok (log ++ (l.zipIdx i).map Prod.swap) := by
  induction l generalizing i log with
  | nil => simp [visitChain]
  | cons c l ih =>
      have hrest := ih (i + 1) (log ++ [(i, c)])
      rw [visitChain]
      apply hrest.trans
      simp

/-- The walk calls on the clusters of the chain one after the other, each of them once;
the `n`-th entry is the `n`-th cluster; and freeing the chain frees its clusters, and
leaves all the other entries as they are. -/
theorem chain_walked_and_freed (hl : fs.Layout) (h : fs.Chain d a l) (hr : fs.Readable d l) :
    (l.Nodup ∧ ∀ fuel, l.length ≤ fuel →
      fs.readClusterChain (fun _ => d) (fun index c log => .ok (true, log ++ [(index, c)])) fuel 0 a [] =
        .ok (l.zipIdx.map Prod.swap)) ∧
      (∀ (α : Type) (device : α → BlockDev) (callback : Nat → Nat → α → Except Fault (Bool × α)) (s : α) (fuel : Nat),
        device s = d → fs.KeepsLinks device callback l → l.length ≤ fuel →
          fs.readClusterChain device callback fuel 0 a s = visitChain callback 0 l s) ∧
      (∀ n, fs.nthChainEntry d a n = .ok (l.getD n 0)) ∧
      (fs.Writable d l → ∀ fuel, l.length ≤ fuel → ∃ d', fs.freeClusterChain fuel d a = .ok d' ∧
        fs.TableFrame d d' ∧ ∀ c, (c ∈ l → fs.entry d' c = 0) ∧ (c ∉ l → fs.rawEntry d' c = fs.rawEntry d c)) := by
  refine ⟨⟨h.links.nodup, ?_⟩, ?_, nthChainEntry_chain hl hr h, ?_⟩
  · intro fuel hfuel
    have hkeep : fs.KeepsLinks (fun _ : List (Nat × Nat) => d)
        (fun index c log => .ok (true, log ++ [(index, c)])) l := by
      intro i c s r _ x _ hread
      exact ⟨hread, rfl⟩
    rw [readClusterChain_chain hl hr h hkeep hfuel]
    exact visitChain_record l 0 []
  · intro α device callback s fuel hs hkeep hfuel
    subst hs
    exact readClusterChain_chain hl hr h hkeep hfuel
  · intro hw fuel hfuel
    exact freeClusterChain_chain hl hr hw h hfuel

/-- A device whose FAT12 leads from cluster 2 over 3 to 5; two of the entries share a byte. -/
def linked : BlockDev where
  blocks := fun lba x => if lba = 1 then [0, 0, 0, 0x03, 0x50, 0x00, 0x00, 0xF0, 0xFF].getD x 0 else 0
  readFails := fun _ => false
  writeFails := fun _ => false
  failures := 0

theorem chain_linked : (small .fat12).Chain linked 2 [2, 3, 5] where
  links := .cons (by decide +kernel) (.cons (by decide +kernel) (.last (by decide +kernel)))
  clusters := by
    intro c hc
    simp only [List.mem_cons, List.not_mem_nil, or_false] at hc
    rcases hc with rfl | rfl | rfl <;> decide

theorem chain_walked_and_freed_linked :
    (small .fat12).nthChainEntry linked 2 1 = .ok 3 ∧ (small .fat12).nthChainEntry linked 2 3 = .ok 0 := by
  have h := chain_walked_and_freed (layout_small .fat12) chain_linked (fun c _ => ⟨rfl, rfl⟩)
  exact ⟨h.2.2.1 1, h.2.2.1 3⟩

end XviOs.Fat.Filesystem
