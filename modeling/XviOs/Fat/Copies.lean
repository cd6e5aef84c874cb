import XviOs.Library.Runs
import XviOs.Fat.FreeCluster

namespace XviOs.Fat

open Library.Runs

/-- The operations of the driver that write to the table. -/
inductive TableCall
  | link (cluster next : Nat)
  | allocate
  | free (fuel cluster : Nat)

namespace Filesystem

variable {fs : Filesystem} {d d' d'' : BlockDev} {c next fuel : Nat} {cs : List TableCall}

def tableStep (fs : Filesystem) (d : BlockDev) : TableCall → Option BlockDev
  | .link cluster next => (fs.writeClusterChainLink d cluster next).toOption
  | .allocate => (fs.findFreeCluster d true).toOption.map Prod.snd
  | .free fuel cluster => (fs.freeClusterChain fuel d cluster).toOption

/-- The clusters that are freed one after the other from `c` on have entries in the table. -/
inductive FreesWithin (fs : Filesystem) : BlockDev → Nat → Prop
  | last {d : BlockDev} {c next : Nat} : c < fs.clusterCount + 2 → fs.getFATEntry d c = .ok next →
      fs.isEndOfChain next = true → FreesWithin fs d c
  | next {d d' : BlockDev} {c next : Nat} : c < fs.clusterCount + 2 → fs.getFATEntry d c = .ok next →
      fs.isEndOfChain next = false →
      fs.writeClusterChainLink d c (freeClusterMark &&& fs.clusterMask) = .ok d' → FreesWithin fs d' next →
      FreesWithin fs d c

/-- The call only touches clusters that have an entry in the table. -/
def TableAllowed (fs : Filesystem) (d : BlockDev) : TableCall → Prop
  | .link cluster _ => cluster < fs.clusterCount + 2
  | .allocate => True
  | .free _ cluster => fs.FreesWithin d cluster

/-- The sectors of the copy `i` of the table are the same on both devices. -/
def SameCopy (fs : Filesystem) (d d' : BlockDev) (i : Nat) : Prop :=
  ∀ s < fs.fatSize, ∀ o < fs.sectorSize,
    d'.blocks (fs.fatStart + i * fs.fatSize + s) o = d.blocks (fs.fatStart + i * fs.fatSize + s) o

/-- All the copies of the table hold the same bytes. -/
def CopiesIdentical (fs : Filesystem) (d : BlockDev) : Prop :=
  ∀ i < fs.fatCount, ∀ s < fs.fatSize, ∀ o < fs.sectorSize,
    d.blocks (fs.fatStart + i * fs.fatSize + s) o = d.blocks (fs.fatStart + s) o

/-- Whether or not the accesses succeed, a link write touches the first copy only. -/
theorem writeClusterChainLink_frame (hl : fs.Layout) (hc : c < fs.clusterCount + 2)
    (h : fs.writeClusterChainLink d c next = .ok d') : fs.TableFrame d d' := by
  obtain ⟨hs, hs'⟩ := hl.wordSector_lt hc
  have hlo : fs.fatStart ≤ fs.wordSector c := Nat.le_add_right _ _
  have hlo' : fs.fatStart ≤ fs.wordSector' c := Nat.le_add_right _ _
  by_cases hr : fs.WordReads d c
  · rw [writeClusterChainLink_eq hl (hl.cluster_lt hc) hr] at h
    cases h
    exact ⟨writeWord_readFails, writeWord_writeFails, fun lba h => writeWord_blocks (by omega) (by omega)⟩
  · rw [writeClusterChainLink_error hl (hl.cluster_lt hc) hr] at h
    cases h

theorem freeClusterChain_frame (hl : fs.Layout) (hw : fs.FreesWithin d c)
    (h : fs.freeClusterChain fuel d c = .ok d') : fs.TableFrame d d' := by
  induction hw generalizing fuel with
  | @last d c next hc hnext hend =>
      cases fuel with
      | zero => cases h
      | succ fuel =>
          rw [freeClusterChain, hnext] at h
          change (fs.writeClusterChainLink d c _).bind _ = _ at h
          cases hw : fs.writeClusterChainLink d c (freeClusterMark &&& fs.clusterMask) with
          | error e => rw [hw] at h; cases h
          | ok d'' =>
              rw [hw] at h
              change (if fs.isEndOfChain next = true then _ else _) = _ at h
              rw [if_pos hend] at h
              cases h
              exact writeClusterChainLink_frame hl hc hw
  | @next d d'' c next hc hnext hend hw _ ih =>
      cases fuel with
      | zero => cases h
      | succ fuel =>
          rw [freeClusterChain, hnext] at h
          change (fs.writeClusterChainLink d c _).bind _ = _ at h
          rw [hw] at h
          change (if fs.isEndOfChain next = true then _ else _) = _ at h
          rw [if_neg (by simp [hend])] at h
          exact (writeClusterChainLink_frame hl hc hw).trans (ih h)

theorem tableStep_frame (hl : fs.Layout) {call : TableCall} (ha : fs.TableAllowed d call)
    (h : fs.tableStep d call = some d') : fs.TableFrame d d' := by
  cases call with
  | link cluster next =>
      cases hw : fs.writeClusterChainLink d cluster next with
      | error e => simp [tableStep, hw, Except.toOption] at h
      | ok d'' =>
          simp only [tableStep, hw, Except.toOption, Option.some.injEq] at h
          exact writeClusterChainLink_frame hl ha (h ▸ hw)
  | allocate =>
      cases hw : fs.findFreeCluster d true with
      | error e => simp [tableStep, hw, Except.toOption] at h
      | ok r =>
          simp only [tableStep, hw, Except.toOption, Option.map_some, Option.some.injEq] at h
          obtain ⟨c, d''⟩ := r
          cases h
          rcases findFreeCluster_cases hl hw with ⟨-, rfl⟩ | ⟨-, hc, -, hlink⟩
          · exact .refl fs _
          · exact writeClusterChainLink_frame hl (by omega) hlink
  | free fuel cluster =>
      cases hw : fs.freeClusterChain fuel d cluster with
      | error e => simp [tableStep, hw, Except.toOption] at h
      | ok d'' =>
          simp only [tableStep, hw, Except.toOption, Option.some.injEq] at h
          exact freeClusterChain_frame hl ha (h ▸ hw)

/-- No run writes outside of the first copy. -/
theorem run_frame (hl : fs.Layout) (h : Execution fs.tableStep fs.TableAllowed d cs d') : fs.TableFrame d d' :=
  h.invariant (.refl fs d) (fun _ _ _ hf ha hs => hf.trans (tableStep_frame hl ha hs))

theorem TableFrame.sameCopy (h : fs.TableFrame d d') {i : Nat} (hi : 0 < i) : fs.SameCopy d d' i := by
  intro s hs o ho
  have : fs.fatSize ≤ i * fs.fatSize := Nat.le_mul_of_pos_left _ hi
  rw [h.blocks _ (by omega)]

/-- In every run the driver writes to the first copy of the table only. Copies that
were identical are so after it exactly when there is one copy, or the first one holds
again what it held at the beginning. -/
theorem copies_after_run (hl : fs.Layout) (hid : fs.CopiesIdentical d)
    (h : Execution fs.tableStep fs.TableAllowed d cs d') :
    (∀ i, 0 < i → fs.SameCopy d d' i) ∧
      (fs.CopiesIdentical d' ↔ fs.fatCount = 1 ∨ fs.SameCopy d d' 0) := by
  have hcopy : ∀ i, 0 < i → fs.SameCopy d d' i := fun i hi => (run_frame hl h).sameCopy hi
  refine ⟨hcopy, ?_, ?_⟩
  · intro hid'
    by_cases h1 : fs.fatCount = 1
    · exact .inl h1
    · have hlt : 1 < fs.fatCount := by have := hl.fatCount; omega
      refine .inr (fun s hs o ho => ?_)
      rw [Nat.zero_mul, Nat.add_zero, ← hid' 1 hlt s hs o ho, ← hid 1 hlt s hs o ho]
      exact hcopy 1 (by decide) s hs o ho
  · rintro (h1 | h0) i hi s hs o ho
    · obtain rfl : i = 0 := by omega
      rw [Nat.zero_mul, Nat.add_zero]
    · rcases Nat.eq_zero_or_pos i with rfl | hpos
      · rw [Nat.zero_mul, Nat.add_zero]
      · have hs0 := h0 s hs o ho
        rw [Nat.zero_mul, Nat.add_zero] at hs0
        rw [hcopy i hpos s hs o ho, hid i hi s hs o ho, hs0]

theorem copiesIdentical_blank (fs : Filesystem) : fs.CopiesIdentical .blank := fun _ _ _ _ _ _ => rfl

theorem copies_after_run_small :
    ∃ d', Execution (small .fat12).tableStep (small .fat12).TableAllowed .blank [.link 3 0xFFF] d' ∧
      (small .fat12).SameCopy .blank d' 1 := by
  have hc : 3 < (small .fat12).clusterCount + 2 := by decide
  obtain ⟨d', h, -⟩ := writeClusterChainLink_reliable (layout_small .fat12) hc (BlockDev.reliable_blank _ _) 0xFFF
  have hrun : Execution (small .fat12).tableStep (small .fat12).TableAllowed .blank [.link 3 0xFFF] d' :=
    .snoc .nil hc (by simp [tableStep, h, Except.toOption])
  exact ⟨d', hrun, (copies_after_run (layout_small .fat12) (copiesIdentical_blank _) hrun).1 1 (by decide)⟩

/-- On a volume with two copies of the table, one link makes them differ. -/
theorem copies_diverge :
    ¬ ∀ (fs : Filesystem) (d d' : BlockDev) (cs : List TableCall), fs.Layout → fs.CopiesIdentical d →
      Execution fs.tableStep fs.TableAllowed d cs d' → fs.CopiesIdentical d' := by
  intro h
  let fs := small .fat12
  let d' := fs.writeWord .blank 3 (fs.updateWord 3 (fs.word .blank 3) 0xFFF)
  have hc : 3 < fs.clusterCount + 2 := by decide
  have hw : fs.writeClusterChainLink .blank 3 0xFFF = .ok d' :=
    writeClusterChainLink_eq (layout_small .fat12) (by decide) ⟨rfl, rfl⟩
  have hid := h fs .blank d' [.link 3 0xFFF] (layout_small .fat12) (copiesIdentical_blank _)
    (.snoc .nil hc (by simp only [tableStep, hw, Except.toOption]))
  have hbyte : d'.blocks (fs.fatStart + 1 * fs.fatSize + 0) 4 ≠ d'.blocks (fs.fatStart + 0) 4 := by decide
  exact hbyte (hid 1 (by decide) 0 (by decide) 4 (by decide))

end Filesystem

end XviOs.Fat
