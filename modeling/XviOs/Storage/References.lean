import Mathlib.Tactic
import XviOs.Storage.BlockCache

namespace XviOs.Storage

open Library.LittleEndian Library.Runs
open Fat (BlockDev)

/-- The block that a handle refers to. -/
def BlockHandle.block (h : BlockHandle) : Option Nat := if h.cache then some h.metadata else none

def BlockHandle.holds (h : BlockHandle) (b : Nat) : Nat := if h.block = some b then 1 else 0

def blockAt (h : Option BlockHandle) : Option Nat := h.bind BlockHandle.block

/-- How many of the handles refer to the block. -/
def referencesIn (handles : List (Option BlockHandle)) (b : Nat) : Nat := (handles.map blockAt).count (some b)

/-- The devices after the write of a release. -/
def Release.apply (devices : Nat → BlockDev) (r : Release) : Nat → BlockDev :=
  match r.write with
  | none => devices
  | some (device, lba, data) => Function.update devices device ((devices device).writeBack lba data)

namespace State

def references (s : State) (b : Nat) : Nat := referencesIn s.handles b

/-- The reference count of a block that is there. -/
def refcount (s : State) (b : Nat) : Nat := ((s.infos b).map BlockInfo.refcount).getD 0

/-- The write that the release of a block has to come with. -/
def writeBack (s : State) (b : Nat) : Option (Nat × Nat × Bytes) :=
  (s.infos b).bind fun info =>
    if (b, Acquire.readForUpdate) ∈ s.obtained then some (info.device, info.lba, info.buffer) else none

/-- The blocks that are there are those that `f` counts references to. -/
def Balanced (s : State) (f : Nat → Nat) : Prop :=
  ∀ b, s.refcount b = f b ∧ (s.infos b = none ↔ f b = 0)

/-- Nothing changes but reference counts, and what is released. -/
structure Kept (s t : State) : Prop where
  handles : t.handles = s.handles
  next : t.next = s.next
  obtained : t.obtained = s.obtained
  infos : ∀ b info', t.infos b = some info' →
    ∃ info, s.infos b = some info ∧ info' = { info with refcount := info'.refcount }

end State

open State

variable {s t : State} {f : Nat → Nat} {h x y : BlockHandle} {handles : List (Option BlockHandle)} {i j b : Nat}

section Counting

theorem holds_eq (h : BlockHandle) (b : Nat) : (if blockAt (some h) = some b then 1 else 0) = h.holds b := rfl

theorem referencesIn_append (handles : List (Option BlockHandle)) (x : BlockHandle) (b : Nat) :
    referencesIn (handles ++ [some x]) b = referencesIn handles b + x.holds b := by
  rw [referencesIn, List.map_append, List.count_append, List.map_singleton, List.count_singleton]
  congr 1
  rw [BlockHandle.holds, blockAt, Option.bind_some]
  by_cases hx : x.block = some b
  · simp [hx]
  · simp [hx]

theorem referencesIn_set (hi : handles[i]? = some (some x)) (y : Option BlockHandle) (b : Nat) :
    referencesIn (handles.set i y) b + x.holds b =
      referencesIn handles b + if blockAt y = some b then 1 else 0 := by
  obtain ⟨hlt, hget⟩ := List.getElem?_eq_some_iff.mp hi
  have hlt' : i < (handles.map blockAt).length := by rwa [List.length_map]
  have hget' : (handles.map blockAt)[i] = x.block := by rw [List.getElem_map, hget]; rfl
  have hpos : x.holds b ≤ (handles.map blockAt).count (some b) := by
    rw [BlockHandle.holds]
    split
    · next hx =>
      apply List.one_le_count_iff.mpr
      rw [← hx, ← hget']
      exact List.getElem_mem hlt'
    · exact Nat.zero_le _
  rw [referencesIn, referencesIn, List.map_set, List.count_set hlt', hget']
  rw [BlockHandle.holds] at hpos ⊢
  simp only [beq_iff_eq]
  omega

theorem holds_le_referencesIn (hi : handles[i]? = some (some x)) (b : Nat) : x.holds b ≤ referencesIn handles b := by
  have hset := referencesIn_set hi none b
  rw [blockAt, Option.bind_none, if_neg (by simp)] at hset
  omega

@[simp] theorem holds_default (b : Nat) : ({} : BlockHandle).holds b = 0 := rfl

end Counting

section Special

theorem State.Kept.refl (s : State) : Kept s s := ⟨rfl, rfl, rfl, fun _ info' h => ⟨info', h, rfl⟩⟩

theorem State.Kept.trans {u : State} (h : Kept s t) (h' : Kept t u) : Kept s u where
  handles := h'.handles.trans h.handles
  next := h'.next.trans h.next
  obtained := h'.obtained.trans h.obtained
  infos := by
    intro b info'' hinfo
    obtain ⟨info', hinfo', heq'⟩ := h'.infos b info'' hinfo
    obtain ⟨info, hinfo, heq⟩ := h.infos b info' hinfo'
    refine ⟨info, hinfo, ?_⟩
    rw [heq', heq]

theorem block_of_cache (hc : h.cache = true) : h.block = some h.metadata := if_pos hc

theorem holds_self (hc : h.cache = true) : h.holds h.metadata = 1 := if_pos (block_of_cache hc)

theorem holds_of_ne (hb : b ≠ h.metadata) : h.holds b = 0 := by
  rw [BlockHandle.holds, BlockHandle.block]
  apply if_neg
  split
  · exact fun heq => hb (Option.some_inj.mp heq).symm
  · exact fun heq => absurd heq (by simp)

theorem holds_of_not_cache (hc : h.cache = false) (b : Nat) : h.holds b = 0 := by
  rw [BlockHandle.holds, BlockHandle.block, hc]
  rfl

theorem State.Balanced.info (hbal : Balanced s f) (hb : 0 < f b) : ∃ info, s.infos b = some info ∧ info.refcount = f b := by
  obtain ⟨hcount, hnone⟩ := hbal b
  cases hinfo : s.infos b with
  | none => exact absurd (hnone.mp hinfo) (by omega)
  | some info =>
    rw [refcount, hinfo] at hcount
    exact ⟨info, rfl, hcount⟩

@[simp] theorem infos_setInfo_self (s : State) (b : Nat) (info : Option BlockInfo) : (s.setInfo b info).infos b = info :=
  Function.update_self _ _ _

theorem infos_setInfo_of_ne (s : State) (info : Option BlockInfo) {c : Nat} (hc : c ≠ b) :
    (s.setInfo b info).infos c = s.infos c := Function.update_of_ne hc _ _

@[simp] theorem infos_release_self (s : State) (b : Nat) (info : BlockInfo) : (s.release b info).infos b = none :=
  Function.update_self _ _ _

theorem infos_release_of_ne (s : State) (info : BlockInfo) {c : Nat} (hc : c ≠ b) :
    (s.release b info).infos c = s.infos c := Function.update_of_ne hc _ _

theorem devices_release (s : State) (b : Nat) (info : BlockInfo) :
    (s.release b info).devices = [⟨b, writeOf info⟩].foldl Release.apply s.devices := by
  rw [release, List.foldl_cons, List.foldl_nil, Release.apply, writeOf]
  cases info.writeback with
  | false => rfl
  | true => rfl

/-- A record is given another count. -/
theorem setInfo_kept {info : BlockInfo} (hinfo : s.infos b = some info) (n : Nat) :
    Kept s (s.setInfo b (some { info with refcount := n })) := by
  refine ⟨rfl, rfl, rfl, fun c info' hc => ?_⟩
  obtain rfl | hne := eq_or_ne c b
  · rw [infos_setInfo_self, Option.some_inj] at hc
    exact ⟨info, hinfo, by rw [← hc]⟩
  · rw [infos_setInfo_of_ne _ _ hne] at hc
    exact ⟨info', hc, rfl⟩

theorem setInfo_balanced {info : BlockInfo} {g : Nat → Nat} (hbal : Balanced s f) {n : Nat} (hn : 0 < n) (hb : g b = n)
    (hne : ∀ c, c ≠ b → g c = f c) : Balanced (s.setInfo b (some { info with refcount := n })) g := by
  intro c
  rw [refcount]
  obtain rfl | hc := eq_or_ne c b
  · rw [infos_setInfo_self, hb]
    exact ⟨rfl, iff_of_false (by simp) (by omega)⟩
  · rw [infos_setInfo_of_ne _ _ hc, hne c hc]
    exact hbal c

theorem ref_spec (hbal : Balanced s f) (hh : h.cache = true → 0 < f h.metadata) :
    ∃ t, s.ref h = some t ∧ Balanced t (fun b => f b + h.holds b) ∧ Kept s t ∧ t.releases = s.releases ∧
      t.devices = s.devices := by
  cases hc : h.cache with
  | false =>
    refine ⟨s, by rw [ref, hc]; rfl, ?_, .refl s, rfl, rfl⟩
    intro b
    dsimp only
    rw [holds_of_not_cache hc, Nat.add_zero]
    exact hbal b
  | true =>
    obtain ⟨info, hinfo, hcount⟩ := hbal.info (hh hc)
    refine ⟨s.setInfo h.metadata (some { info with refcount := info.refcount + 1 }), ?_, ?_, setInfo_kept hinfo _, rfl,
      rfl⟩
    · rw [ref, hc, Bool.not_true, if_neg (by decide), cacheRef, hinfo, Option.map_some]
    · apply setInfo_balanced hbal (Nat.succ_pos _)
      · rw [holds_self hc, hcount]
      · intro c hne
        rw [holds_of_ne hne, Nat.add_zero]

/-- What dropping a handle releases: its block, if no other reference is counted. -/
def Drops (s : State) (f : Nat → Nat) (h : BlockHandle) (released : List Release) : Prop :=
  released.length ≤ 1 ∧
    ∀ r, r ∈ released ↔ 0 < f r.block ∧ f r.block - h.holds r.block = 0 ∧ r.write = (s.infos r.block).bind writeOf

theorem unref_spec (hbal : Balanced s f) (hh : h.cache = true → 0 < f h.metadata) :
    ∃ t released, s.unref h = some t ∧ Balanced t (fun b => f b - h.holds b) ∧ Kept s t ∧
      t.releases = s.releases ++ released ∧ t.devices = released.foldl Release.apply s.devices ∧
        Drops s f h released := by
  cases hc : h.cache with
  | false =>
    refine ⟨s, [], by rw [unref, hc]; rfl, ?_, .refl s, (List.append_nil _).symm, rfl, Nat.zero_le _, ?_⟩
    · intro b
      dsimp only
      rw [holds_of_not_cache hc, Nat.sub_zero]
      exact hbal b
    · intro r
      rw [holds_of_not_cache hc]
      exact iff_of_false (by simp) (by omega)
  | true =>
    obtain ⟨info, hinfo, hcount⟩ := hbal.info (hh hc)
    have hpos := hh hc
    have hunref : s.unref h = some (if info.refcount > 1 then
        s.setInfo h.metadata (some { info with refcount := info.refcount - 1 }) else s.release h.metadata info) := by
      rw [unref, hc, Bool.not_true, if_neg (by decide), cacheUnref, hinfo, Option.map_some]
    by_cases hmany : info.refcount > 1
    · rw [if_pos hmany] at hunref
      refine ⟨_, [], hunref, ?_, setInfo_kept hinfo _, (List.append_nil _).symm, rfl, Nat.zero_le _, ?_⟩
      · apply setInfo_balanced hbal (by omega)
        · rw [holds_self hc, hcount]
        · intro c hne
          rw [holds_of_ne hne, Nat.sub_zero]
      · intro r
        refine iff_of_false (by simp) ?_
        rintro ⟨hr, hzero, -⟩
        obtain heq | hne := eq_or_ne r.block h.metadata
        · rw [heq, holds_self hc] at hzero
          omega
        · rw [holds_of_ne hne] at hzero
          omega
    · rw [if_neg hmany] at hunref
      refine ⟨_, [⟨h.metadata, writeOf info⟩], hunref, ?_, ⟨rfl, rfl, rfl, ?_⟩, rfl, devices_release s _ info,
        le_refl 1, ?_⟩
      · intro c
        dsimp only
        rw [refcount]
        obtain rfl | hne := eq_or_ne c h.metadata
        · rw [infos_release_self, holds_self hc]
          exact ⟨by simp; omega, iff_of_true rfl (by omega)⟩
        · rw [infos_release_of_ne _ _ hne, holds_of_ne hne, Nat.sub_zero]
          exact hbal c
      · intro c info' hinfo'
        obtain rfl | hne := eq_or_ne c h.metadata
        · rw [infos_release_self] at hinfo'
          exact absurd hinfo' (by simp)
        · rw [infos_release_of_ne _ _ hne] at hinfo'
          exact ⟨info', hinfo', rfl⟩
      · intro r
        rw [List.mem_singleton]
        constructor
        · rintro rfl
          dsimp only
          rw [holds_self hc, hinfo]
          exact ⟨by omega, by omega, rfl⟩
        · rintro ⟨hr, hzero, hwrite⟩
          obtain heq | hne := eq_or_ne r.block h.metadata
          · rw [heq, hinfo] at hwrite
            obtain ⟨block, write⟩ := r
            dsimp only at heq hwrite
            rw [heq, hwrite]
            rfl
          · rw [holds_of_ne hne] at hzero
            omega

end Special

end XviOs.Storage
