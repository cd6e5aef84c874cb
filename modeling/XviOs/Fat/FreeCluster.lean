import XviOs.Fat.ChainLink

namespace XviOs.Fat.Filesystem

variable {fs : Filesystem} {d d' : BlockDev} {c c' n : Nat} {mark : Bool}

theorem rawEntry_and_clusterMask (fs : Filesystem) (d : BlockDev) (c : Nat) :
    fs.rawEntry d c &&& fs.clusterMask = fs.entry d c := by
  apply Library.BitField.eq_field
  intro j
  rw [and_clusterMask, Nat.testBit_mod_two_pow, rawEntry, Library.BitField.testBit_field]
  have := clusterBits_le fs
  by_cases hj : j < fs.type.clusterBits
  · simp [hj, show j < fs.type.entryBits by omega]
  · simp [hj]

/-- A raw entry is free when its cluster number is. -/
theorem isFreeClusterMark_raw (fs : Filesystem) (d : BlockDev) (c : Nat) :
    fs.isFreeClusterMark (fs.rawEntry d c) = (fs.entry d c == 0) := by
  rw [isFreeClusterMark, rawEntry_and_clusterMask]
  simp [freeClusterMark]

/-- The search either finds nothing and changes nothing, or it finds a free cluster,
and marks it if it was asked to. -/
theorem findFreeClusterFrom_cases (hl : fs.Layout) (hn : c + n ≤ fs.clusterCount + 2)
    (h : fs.findFreeClusterFrom d mark n c = .ok (c', d')) :
    (c' = 0 ∧ d' = d) ∨
      (c ≤ c' ∧ c' < c + n ∧ fs.entry d c' = 0 ∧
        if mark then fs.writeClusterChainLink d c' (endOfChain &&& fs.clusterMask) = .ok d' else d' = d) := by
  induction n generalizing c with
  | zero =>
      cases h
      exact .inl ⟨rfl, rfl⟩
  | succ n ih =>
      rw [findFreeClusterFrom] at h
      by_cases hr : fs.WordReads d c
      · rw [getFATEntryRaw_ok hl (hl.cluster_lt (by omega)) hr] at h
        change (if fs.isFreeClusterMark (fs.rawEntry d c) = true then _ else _) = _ at h
        rw [isFreeClusterMark_raw] at h
        by_cases hfree : fs.entry d c = 0
        · rw [if_pos (by simp [hfree])] at h
          cases mark with
          | true =>
              cases hw : fs.writeClusterChainLink d c (endOfChain &&& fs.clusterMask) with
              | error e => rw [hw] at h; cases h
              | ok d'' =>
                  rw [hw] at h
                  cases h
                  exact .inr ⟨Nat.le_refl _, by omega, hfree, hw⟩
          | false =>
              cases h
              exact .inr ⟨Nat.le_refl _, by omega, hfree, rfl⟩
        · rw [if_neg (by simp [hfree])] at h
          rcases ih (by omega) h with h' | ⟨hle, hlt, h'⟩
          · exact .inl h'
          · exact .inr ⟨by omega, by omega, h'⟩
      · rw [getFATEntryRaw_error hl (hl.cluster_lt (by omega)) hr] at h
        cases h

theorem findFreeCluster_cases (hl : fs.Layout) (h : fs.findFreeCluster d mark = .ok (c, d')) :
    (c = 0 ∧ d' = d) ∨
      (2 ≤ c ∧ c < fs.clusterCount ∧ fs.entry d c = 0 ∧
        if mark then fs.writeClusterChainLink d c (endOfChain &&& fs.clusterMask) = .ok d' else d' = d) := by
  by_cases hn : fs.clusterCount ≤ 2
  · rw [findFreeCluster, show fs.clusterCount - 2 = 0 by omega] at h
    cases h
    exact .inl ⟨rfl, rfl⟩
  · rcases findFreeClusterFrom_cases hl (by omega) h with h' | ⟨hle, hlt, h'⟩
    · exact .inl h'
    · exact .inr ⟨hle, by omega, h'⟩

/-- On a reliable table the search comes to an end. -/
theorem findFreeCluster_reliable (hl : fs.Layout) (hr : fs.TableReliable d) (mark : Bool) :
    ∃ r, fs.findFreeCluster d mark = .ok r := by
  have hfrom (n c : Nat) (hn : c + n ≤ fs.clusterCount + 2) : ∃ r, fs.findFreeClusterFrom d mark n c = .ok r := by
    induction n generalizing c with
    | zero => exact ⟨_, rfl⟩
    | succ n ih =>
        rw [findFreeClusterFrom, getFATEntryRaw_ok hl (hl.cluster_lt (by omega)) (hr.wordReads hl (by omega))]
        change ∃ r, (if fs.isFreeClusterMark (fs.rawEntry d c) = true then _ else _) = _
        split
        · cases mark with
          | true =>
              obtain ⟨d', hw, -⟩ := writeClusterChainLink_reliable hl (show c < fs.clusterCount + 2 by omega) hr
                (endOfChain &&& fs.clusterMask)
              rw [hw]
              exact ⟨_, rfl⟩
          | false => exact ⟨_, rfl⟩
        · exact ih (c + 1) (by omega)
  by_cases hn : fs.clusterCount ≤ 2
  · rw [findFreeCluster, show fs.clusterCount - 2 = 0 by omega]
    exact ⟨_, rfl⟩
  · exact hfrom _ _ (by omega)

/-- A search that finds nothing has met no free cluster. -/
theorem findFreeClusterFrom_zero (hl : fs.Layout) (hn : c + n ≤ fs.clusterCount + 2) (hc : 0 < c)
    (h : fs.findFreeClusterFrom d mark n c = .ok (0, d')) : ∀ x, c ≤ x → x < c + n → fs.entry d x ≠ 0 := by
  induction n generalizing c with
  | zero =>
      intro x hle hlt
      omega
  | succ n ih =>
      rw [findFreeClusterFrom] at h
      by_cases hr : fs.WordReads d c
      · rw [getFATEntryRaw_ok hl (hl.cluster_lt (by omega)) hr] at h
        change (if fs.isFreeClusterMark (fs.rawEntry d c) = true then _ else _) = _ at h
        rw [isFreeClusterMark_raw] at h
        by_cases hfree : fs.entry d c = 0
        · rw [if_pos (by simp [hfree])] at h
          cases mark with
          | true =>
              cases hw : fs.writeClusterChainLink d c (endOfChain &&& fs.clusterMask) with
              | error e => rw [hw] at h; cases h
              | ok d'' =>
                  rw [hw] at h
                  obtain ⟨h0, -⟩ := Prod.mk.inj (Except.ok.inj h)
                  omega
          | false =>
              obtain ⟨h0, -⟩ := Prod.mk.inj (Except.ok.inj h)
              omega
        · rw [if_neg (by simp [hfree])] at h
          intro x hle hlt
          rcases Nat.eq_or_lt_of_le hle with rfl | hlt'
          · exact hfree
          · exact ih (by omega) (by omega) h x hlt' (by omega)
      · rw [getFATEntryRaw_error hl (hl.cluster_lt (by omega)) hr] at h
        cases h

/-- The answer of a search for a free data cluster. -/
def SearchRight (fs : Filesystem) (d : BlockDev) (cluster : Nat) : Prop :=
  if cluster = 0 then ∀ c, 2 ≤ c → c < fs.clusterCount + 2 → fs.entry d c ≠ 0
  else 2 ≤ cluster ∧ cluster < fs.clusterCount + 2 ∧ fs.entry d cluster = 0

theorem searchRight_iff (hl : fs.Layout) (h : fs.findFreeCluster d mark = .ok (cluster, d')) :
    fs.SearchRight d cluster ↔
      (∃ c, 2 ≤ c ∧ c < fs.clusterCount ∧ fs.entry d c = 0) ∨
        ∀ c, 2 ≤ c → fs.clusterCount ≤ c → c < fs.clusterCount + 2 → fs.entry d c ≠ 0 := by
  by_cases h0 : cluster = 0
  · subst h0
    have hnone : ∀ c, 2 ≤ c → c < fs.clusterCount → fs.entry d c ≠ 0 := by
      intro c hle hlt
      exact findFreeClusterFrom_zero hl (by omega) (by decide) h c hle (by omega)
    rw [SearchRight, if_pos rfl]
    constructor
    · intro hall
      exact .inr fun c hle _ hlt => hall c hle hlt
    · rintro (⟨c, hle, hlt, hfree⟩ | hlast) c' hle' hlt'
      · exact absurd hfree (hnone c hle hlt)
      · by_cases hc : c' < fs.clusterCount
        · exact hnone c' hle' hc
        · exact hlast c' hle' (by omega) hlt'
  · rw [SearchRight, if_neg h0]
    rcases findFreeCluster_cases hl h with ⟨hz, -⟩ | ⟨hle, hlt, hfree, -⟩
    · exact absurd hz h0
    · exact ⟨fun _ => .inl ⟨cluster, hle, hlt, hfree⟩, fun _ => ⟨hle, by omega, hfree⟩⟩

/-- The search ends two clusters early. Its answer is right exactly if it finds a free
cluster before that, or if these two are in use. -/
theorem findFreeCluster_right_iff (hl : fs.Layout) (hr : fs.TableReliable d) (mark : Bool) :
    ∃ cluster d', fs.findFreeCluster d mark = .ok (cluster, d') ∧
      (fs.SearchRight d cluster ↔
        (∃ c, 2 ≤ c ∧ c < fs.clusterCount ∧ fs.entry d c = 0) ∨
          ∀ c, 2 ≤ c → fs.clusterCount ≤ c → c < fs.clusterCount + 2 → fs.entry d c ≠ 0) := by
  obtain ⟨⟨cluster, d'⟩, h⟩ := findFreeCluster_reliable hl hr mark
  exact ⟨cluster, d', h, searchRight_iff hl h⟩

theorem findFreeCluster_right_iff_blank : ∃ cluster d', (small .fat12).findFreeCluster .blank false = .ok (cluster, d') ∧
    ((small .fat12).SearchRight .blank cluster ↔
      (∃ c, 2 ≤ c ∧ c < (small .fat12).clusterCount ∧ (small .fat12).entry .blank c = 0) ∨
        ∀ c, 2 ≤ c → (small .fat12).clusterCount ≤ c → c < (small .fat12).clusterCount + 2 →
          (small .fat12).entry .blank c ≠ 0) :=
  findFreeCluster_right_iff (layout_small .fat12) (BlockDev.reliable_blank _ _) false

/-- A device on which of the six data clusters only the last two are free. -/
def nearlyFull : BlockDev := { BlockDev.blank with blocks := fun _ x => if 3 ≤ x ∧ x < 9 then 0xFF else 0 }

theorem findFreeCluster_misses :
    ¬ ∀ (fs : Filesystem) (d : BlockDev), fs.Layout → fs.TableReliable d →
      ∃ cluster d', fs.findFreeCluster d false = .ok (cluster, d') ∧ fs.SearchRight d cluster := by
  intro hall
  obtain ⟨cluster, d', h, hright⟩ :=
    hall (small .fat12) nearlyFull (layout_small .fat12) (fun _ _ _ => ⟨rfl, rfl⟩)
  have hused : ∀ c < 6, 2 ≤ c → (small .fat12).entry nearlyFull c ≠ 0 := by decide +kernel
  have hfree : (small .fat12).entry nearlyFull 6 = 0 := by decide +kernel
  rcases (searchRight_iff (layout_small .fat12) h).mp hright with ⟨c, hle, hlt, hc⟩ | hlast
  · exact hused c hlt hle hc
  · exact hlast 6 (by decide) (by decide) (by decide) hfree

end XviOs.Fat.Filesystem
