import Mathlib.Tactic
import XviOs.Storage.References

namespace XviOs.Storage

open Library.LittleEndian Library.Runs State
open Fat (BlockDev)

/-- The handles that are used are there, and blocks are obtained into handles that hold none. -/
def Allowed (s : State) : Op → Prop
  | .construct => True
  | .acquire _ _ _ _ out => out.Nodup ∧ ∀ i ∈ out, ∃ x, s.handle i = some x ∧ x.cache = false
  | .copy j | .move j | .destroy j | .write j _ => (s.handle j).isSome
  | .copyAssign i j | .moveAssign i j | .swap i j => (s.handle i).isSome ∧ (s.handle j).isSome

structure Inv (s : State) : Prop where
  balanced : s.Balanced s.references
  fresh : ∀ b, s.next ≤ b → s.infos b = none
  spans : ∀ x, some x ∈ s.handles → x.span = x.block
  writeback : ∀ b info, s.infos b = some info → (info.writeback = true ↔ (b, Acquire.readForUpdate) ∈ s.obtained)
  obtained_lt : ∀ p ∈ s.obtained, p.1 < s.next
  nodup : (s.releases.map Release.block).Nodup
  gone : ∀ r ∈ s.releases, r.block < s.next ∧ s.infos r.block = none
  lost : ∀ b < s.next, s.infos b = none → b ∈ s.releases.map Release.block

/-- A step releases the blocks whose last handle it drops, and those only, and writes nothing else to a device. -/
def ReleasesLast (s t : State) : Prop :=
  ∃ released, t.releases = s.releases ++ released ∧ t.devices = released.foldl Release.apply s.devices ∧
    ∀ r, r ∈ released ↔ 0 < s.references r.block ∧ t.references r.block = 0 ∧ r.write = s.writeBack r.block

/-- The records that are left are for the same places, with the same write-back flags. -/
structure Persists (s t : State) : Prop where
  next : s.next ≤ t.next
  infos : ∀ b < s.next, ∀ info', t.infos b = some info' →
    ∃ info, s.infos b = some info ∧ info'.device = info.device ∧ info'.lba = info.lba ∧
      info'.writeback = info.writeback

/-- What is known of a step. -/
structure Stepped (s t : State) : Prop where
  inv : Inv t
  releases : ReleasesLast s t
  persists : Persists s t

variable {s t u : State} {x y : BlockHandle} {handles : List (Option BlockHandle)} {i j b : Nat}

theorem inv_initial (devices : Nat → BlockDev) : Inv { devices } where
  balanced b := ⟨rfl, iff_of_true rfl rfl⟩
  fresh b _ := rfl
  spans x hx := absurd hx (by simp)
  writeback b info h := absurd h (by simp)
  obtained_lt p hp := absurd hp (by simp)
  nodup := List.nodup_nil
  gone r hr := absurd hr (by simp)
  lost b hb := absurd hb (Nat.not_lt_zero b)

theorem handle_eq_some : s.handle i = some x ↔ s.handles[i]? = some (some x) := by
  rw [handle, Option.join_eq_some_iff]

theorem Inv.reference_pos (_h : Inv s) (hx : s.handle i = some x) (hc : x.cache = true) :
    0 < s.references x.metadata := by
  have hle := holds_le_referencesIn (handle_eq_some.mp hx) x.metadata
  rw [holds_self hc] at hle
  exact hle

theorem Inv.writeOf_eq (h : Inv s) (b : Nat) : (s.infos b).bind writeOf = s.writeBack b := by
  rw [writeBack]
  cases hinfo : s.infos b with
  | none => rfl
  | some info =>
    rw [Option.bind_some, Option.bind_some, writeOf]
    have hiff := h.writeback b info hinfo
    by_cases hw : info.writeback = true
    · rw [if_pos hw, if_pos (hiff.mp hw)]
    · rw [if_neg hw, if_neg fun hmem => hw (hiff.mpr hmem)]

theorem writeOf_of_same {info info' : BlockInfo} (h : info' = { info with refcount := info'.refcount }) :
    writeOf info' = writeOf info := by
  rw [h]
  rfl

theorem nodup_of_length_le_one {l : List Nat} (h : l.length ≤ 1) : l.Nodup := by
  obtain rfl | ⟨a, rfl⟩ : l = [] ∨ ∃ a, l = [a] := by
    cases l with
    | nil => exact Or.inl rfl
    | cons a l =>
      rw [List.length_cons] at h
      obtain rfl : l = [] := List.length_eq_zero_iff.mp (by omega)
      exact Or.inr ⟨a, rfl⟩
  · exact List.nodup_nil
  · exact List.nodup_singleton a

/-- A step after which no block has fewer references, and nothing is released. -/
theorem releasesLast_none (hreleases : t.releases = s.releases) (hdevices : t.devices = s.devices)
    (hle : ∀ b, s.references b ≤ t.references b) :
    ReleasesLast s t := by
  refine ⟨[], hreleases.trans (List.append_nil _).symm, hdevices, fun r => iff_of_false (by simp) ?_⟩
  rintro ⟨hpos, hzero, -⟩
  have := hle r.block
  omega

theorem State.Kept.persists (h : Kept s t) : Persists s t := by
  refine ⟨h.next.ge, ?_⟩
  intro b hb info' hinfo'
  obtain ⟨info, hinfo, heq⟩ := h.infos b info' hinfo'
  rw [heq]
  exact ⟨info, hinfo, rfl, rfl, rfl⟩

/-- What is left of a step after the records have changed: new handles, which the records are balanced with. -/
theorem Inv.finish (h : Inv s) (hkept : Kept s u) {released : List Release}
    (hreleases : u.releases = s.releases ++ released)
    (hdevices : u.devices = released.foldl Release.apply s.devices) (hlen : released.length ≤ 1)
    (hreleased : ∀ r, r ∈ released ↔
      0 < s.references r.block ∧ referencesIn handles r.block = 0 ∧ r.write = s.writeBack r.block)
    (hbal : u.Balanced (referencesIn handles)) (hspans : ∀ x, some x ∈ handles → x.span = x.block) :
    Stepped s (u.setHandles handles) := by
  have hnone : ∀ b, s.infos b = none → u.infos b = none := by
    intro b hb
    cases hu : u.infos b with
    | none => rfl
    | some info' =>
      obtain ⟨info, hinfo, -⟩ := hkept.infos b info' hu
      exact absurd (hinfo.symm.trans hb) (by simp)
  have hthere : ∀ r ∈ released, s.infos r.block ≠ none ∧ u.infos r.block = none := by
    intro r hr
    obtain ⟨hpos, hzero, -⟩ := (hreleased r).mp hr
    refine ⟨fun hs => ?_, ((hbal r.block).2).mpr hzero⟩
    have := ((h.balanced r.block).2).mp hs
    omega
  refine ⟨⟨hbal, ?_, hspans, ?_, ?_, ?_, ?_, ?_⟩, ⟨released, hreleases, hdevices, hreleased⟩,
    ⟨hkept.persists.next, hkept.persists.infos⟩⟩
  · intro b hb
    exact hnone b (h.fresh b (hkept.next ▸ hb))
  · intro b info' hinfo'
    obtain ⟨info, hinfo, heq⟩ := hkept.infos b info' hinfo'
    rw [heq]
    change info.writeback = true ↔ (b, Acquire.readForUpdate) ∈ u.obtained
    rw [hkept.obtained]
    exact h.writeback b info hinfo
  · intro p hp
    change p.1 < u.next
    rw [hkept.next]
    exact h.obtained_lt p (hkept.obtained ▸ hp)
  · change (u.releases.map Release.block).Nodup
    rw [hreleases, List.map_append]
    apply List.Nodup.append h.nodup (nodup_of_length_le_one (by rwa [List.length_map]))
    intro b hold hnew
    obtain ⟨r, hr, rfl⟩ := List.mem_map.mp hold
    obtain ⟨r', hr', heq⟩ := List.mem_map.mp hnew
    exact (hthere r' hr').1 (heq ▸ (h.gone r hr).2)
  · intro r hr
    change r.block < u.next ∧ u.infos r.block = none
    change r ∈ u.releases at hr
    rw [hreleases] at hr
    rw [hkept.next]
    obtain hold | hnew := List.mem_append.mp hr
    · obtain ⟨hlt, hgone⟩ := h.gone r hold
      exact ⟨hlt, hnone _ hgone⟩
    · obtain ⟨hs, hu⟩ := hthere r hnew
      refine ⟨?_, hu⟩
      by_contra hge
      exact hs (h.fresh _ (not_lt.mp hge))
  · intro b hb hu
    change b < u.next at hb
    change b ∈ u.releases.map Release.block
    rw [hkept.next] at hb
    rw [hreleases, List.map_append, List.mem_append]
    by_cases hs : s.infos b = none
    · exact Or.inl (h.lost b hb hs)
    · have hpos : 0 < s.references b := Nat.pos_of_ne_zero fun hzero => hs (((h.balanced b).2).mpr hzero)
      exact Or.inr (List.mem_map.mpr ⟨⟨b, s.writeBack b⟩, (hreleased _).mpr ⟨hpos, ((hbal b).2).mp hu, rfl⟩, rfl⟩)

/-- A step that drops no handle. -/
theorem Inv.finish_none (h : Inv s) (hkept : Kept s u) (hreleases : u.releases = s.releases)
    (hdevices : u.devices = s.devices) (hle : ∀ b, s.references b ≤ referencesIn handles b)
    (hbal : u.Balanced (referencesIn handles))
    (hspans : ∀ x, some x ∈ handles → x.span = x.block) :
    Stepped s (u.setHandles handles) := by
  apply h.finish hkept (hreleases.trans (List.append_nil _).symm) hdevices (Nat.zero_le _) _ hbal hspans
  intro r
  refine iff_of_false (by simp) ?_
  rintro ⟨hpos, hzero, -⟩
  have := hle r.block
  omega

theorem mem_of_handle (hx : s.handle i = some x) : some x ∈ s.handles :=
  List.mem_of_getElem? (handle_eq_some.mp hx)

theorem spans_append (h : Inv s) (hx : x.span = x.block) :
    ∀ z, some z ∈ s.handles ++ [some x] → z.span = z.block := by
  intro z hz
  obtain hz | hz := List.mem_append.mp hz
  · exact h.spans z hz
  · obtain rfl : z = x := Option.some_inj.mp (List.mem_singleton.mp hz)
    exact hx

theorem spans_set {handles : List (Option BlockHandle)} (h : ∀ z, some z ∈ handles → z.span = z.block)
    {v : Option BlockHandle} (hv : ∀ z, v = some z → z.span = z.block) :
    ∀ z, some z ∈ handles.set i v → z.span = z.block := by
  intro z hz
  obtain hz | hz := List.mem_or_eq_of_mem_set hz
  · exact h z hz
  · exact hv z hz.symm

theorem step_construct (h : Inv s) : ∃ t, step s .construct = some t ∧ Stepped s t := by
  refine ⟨_, rfl, ?_⟩
  have hsame : referencesIn (s.handles ++ [some ({} : BlockHandle)]) = s.references := by
    funext b
    rw [referencesIn_append, holds_default, Nat.add_zero]
    rfl
  apply h.finish_none (.refl s) rfl rfl
  · intro b
    rw [hsame]
  · rw [hsame]
    exact h.balanced
  · exact spans_append h rfl

theorem ref_setHandles (s : State) (handles : List (Option BlockHandle)) (x : BlockHandle) :
    (s.setHandles handles).ref x = (s.ref x).map fun t => t.setHandles handles := by
  rw [ref, ref, cacheRef, cacheRef]
  by_cases hc : (!x.cache) = true
  · rw [if_pos hc, if_pos hc]
    rfl
  · rw [if_neg hc, if_neg hc, Option.map_map]
    rfl

theorem step_copy (h : Inv s) (hj : (s.handle j).isSome) :
    ∃ t, step s (.copy j) = some t ∧ Stepped s t := by
  obtain ⟨x, hx⟩ := Option.isSome_iff_exists.mp hj
  obtain ⟨u, hu, hbal, hkept, hreleases, hdevices⟩ := ref_spec h.balanced (h.reference_pos hx)
  have hrefs : referencesIn (s.handles ++ [some x]) = fun b => s.references b + x.holds b := by
    funext b
    exact referencesIn_append _ _ _
  refine ⟨u.setHandles (s.handles ++ [some x]), ?_, ?_⟩
  · rw [step, hx]
    change (s.setHandles (s.handles ++ [some x])).ref x = _
    rw [ref_setHandles, hu]
    rfl
  · apply h.finish_none hkept hreleases hdevices
    · intro b
      rw [hrefs]
      exact Nat.le_add_right _ _
    · rw [hrefs]
      exact hbal
    · exact spans_append h (h.spans x (mem_of_handle hx))

theorem step_move (h : Inv s) (hj : (s.handle j).isSome) :
    ∃ t, step s (.move j) = some t ∧ Stepped s t := by
  obtain ⟨x, hx⟩ := Option.isSome_iff_exists.mp hj
  have hrefs : referencesIn (s.handles.set j (some {}) ++ [some x]) = s.references := by
    funext b
    have hset := referencesIn_set (handle_eq_some.mp hx) (some {}) b
    rw [holds_eq, holds_default] at hset
    rw [referencesIn_append, references]
    omega
  refine ⟨s.setHandles (s.handles.set j (some {}) ++ [some x]), ?_, ?_⟩
  · rw [step, hx]
    rfl
  · apply h.finish_none (.refl s) rfl rfl
    · intro b
      rw [hrefs]
    · rw [hrefs]
      exact h.balanced
    · intro z hz
      obtain hz | hz := List.mem_append.mp hz
      · apply spans_set h.spans _ z hz
        intro z hz
        rw [← Option.some_inj.mp hz]
        rfl
      · obtain rfl : z = x := Option.some_inj.mp (List.mem_singleton.mp hz)
        exact h.spans z (mem_of_handle hx)

theorem step_swap (h : Inv s) (hi : (s.handle i).isSome) (hj : (s.handle j).isSome) :
    ∃ t, step s (.swap i j) = some t ∧ Stepped s t := by
  obtain ⟨x, hx⟩ := Option.isSome_iff_exists.mp hi
  obtain ⟨y, hy⟩ := Option.isSome_iff_exists.mp hj
  have hy' : (s.handles.set i (some y))[j]? = some (some y) := by
    rw [List.getElem?_set]
    split
    · next hij =>
      rw [if_pos (List.getElem?_eq_some_iff.mp (handle_eq_some.mp hx)).1]
    · exact handle_eq_some.mp hy
  have hrefs : referencesIn ((s.handles.set i (some y)).set j (some x)) = s.references := by
    funext b
    have hset := referencesIn_set (handle_eq_some.mp hx) (some y) b
    have hset' := referencesIn_set hy' (some x) b
    rw [holds_eq] at hset hset'
    rw [references]
    omega
  refine ⟨s.setHandles ((s.handles.set i (some y)).set j (some x)), ?_, ?_⟩
  · rw [step, hx, hy]
    rfl
  · apply h.finish_none (.refl s) rfl rfl
    · intro b
      rw [hrefs]
    · rw [hrefs]
      exact h.balanced
    · have hspan : ∀ k z, s.handle k = some z → z.span = z.block := fun k z hz => h.spans z (mem_of_handle hz)
      apply spans_set (spans_set h.spans _)
      · intro z hz
        rw [← Option.some_inj.mp hz]
        exact hspan i x hx
      · intro z hz
        rw [← Option.some_inj.mp hz]
        exact hspan j y hy

/-- A handle is dropped, and the handles after the step are those that make one reference less. -/
theorem Inv.finish_drop (h : Inv s) {f : Nat → Nat} {released : List Release} (hkept : Kept s t)
    (hreleases : t.releases = s.releases) (hdevices : t.devices = s.devices) (hbal : t.Balanced f)
    (hpos : ∀ b, 0 < f b ↔ 0 < s.references b)
    (hkept' : Kept t u) (hreleases' : u.releases = t.releases ++ released)
    (hdevices' : u.devices = released.foldl Release.apply t.devices) (hdrops : Drops t f y released)
    (hbal' : u.Balanced (fun b => f b - y.holds b)) (hrefs : referencesIn handles = fun b => f b - y.holds b)
    (hspans : ∀ x, some x ∈ handles → x.span = x.block) :
    Stepped s (u.setHandles handles) := by
  apply h.finish (hkept.trans hkept') (by rw [hreleases', hreleases]) (by rw [hdevices', hdevices]) hdrops.1 _
    (by rw [hrefs]; exact hbal') hspans
  intro r
  have hwrite : 0 < f r.block → (t.infos r.block).bind writeOf = s.writeBack r.block := by
    intro hf
    obtain ⟨info', hinfo', -⟩ := hbal.info hf
    obtain ⟨info, hinfo, heq⟩ := hkept.infos _ _ hinfo'
    rw [← h.writeOf_eq, hinfo, hinfo', Option.bind_some, Option.bind_some, writeOf_of_same heq]
  rw [hdrops.2 r, hrefs, ← hpos]
  constructor
  · rintro ⟨hf, hzero, hr⟩
    exact ⟨hf, hzero, hr.trans (hwrite hf)⟩
  · rintro ⟨hf, hzero, hr⟩
    exact ⟨hf, hzero, hr.trans (hwrite hf).symm⟩

theorem step_destroy (h : Inv s) (hi : (s.handle i).isSome) :
    ∃ t, step s (.destroy i) = some t ∧ Stepped s t := by
  obtain ⟨y, hy⟩ := Option.isSome_iff_exists.mp hi
  obtain ⟨u, released, hu, hbal, hkept, hreleases, hdevices, hdrops⟩ := unref_spec h.balanced (h.reference_pos hy)
  have hrefs : referencesIn (s.handles.set i none) = fun b => s.references b - y.holds b := by
    funext b
    have hset := referencesIn_set (handle_eq_some.mp hy) none b
    rw [show blockAt none = none from rfl, if_neg (by simp)] at hset
    rw [references]
    omega
  refine ⟨u.setHandles (s.handles.set i none), ?_, ?_⟩
  · rw [step, hy]
    change (s.unref y).bind (fun t => some (t.setHandles (t.handles.set i none))) = _
    rw [hu, Option.bind_some, hkept.handles]
  · apply h.finish_drop (.refl s) rfl rfl h.balanced (fun _ => Iff.rfl) hkept hreleases hdevices hdrops hbal hrefs
    apply spans_set h.spans
    intro z hz
    exact absurd hz (by simp)

theorem step_moveAssign (h : Inv s) (hi : (s.handle i).isSome) (hj : (s.handle j).isSome) :
    ∃ t, step s (.moveAssign i j) = some t ∧ Stepped s t := by
  obtain rfl | hne := eq_or_ne i j
  · exact ⟨s, if_pos rfl, h, releasesLast_none rfl rfl fun _ => le_rfl, (State.Kept.refl s).persists⟩
  obtain ⟨y, hy⟩ := Option.isSome_iff_exists.mp hi
  obtain ⟨x, hx⟩ := Option.isSome_iff_exists.mp hj
  obtain ⟨u, released, hu, hbal, hkept, hreleases, hdevices, hdrops⟩ := unref_spec h.balanced (h.reference_pos hy)
  have hy' : (s.handles.set j (some {}))[i]? = some (some y) := by
    rw [List.getElem?_set_ne hne.symm, handle_eq_some.mp hy]
  have hrefs : referencesIn ((s.handles.set j (some {})).set i (some x)) = fun b => s.references b - y.holds b := by
    funext b
    have hset := referencesIn_set (handle_eq_some.mp hx) (some {}) b
    have hset' := referencesIn_set hy' (some x) b
    rw [holds_eq, holds_default] at hset
    rw [holds_eq] at hset'
    rw [references]
    omega
  refine ⟨u.setHandles ((s.handles.set j (some {})).set i (some x)), ?_, ?_⟩
  · rw [step, if_neg hne, hx, hy]
    change (s.unref y).bind (fun t => some (t.setHandles ((t.handles.set j (some {})).set i (some x)))) = _
    rw [hu, Option.bind_some, hkept.handles]
  · apply h.finish_drop (.refl s) rfl rfl h.balanced (fun _ => Iff.rfl) hkept hreleases hdevices hdrops hbal hrefs
    apply spans_set (spans_set h.spans _)
    · intro z hz
      rw [← Option.some_inj.mp hz]
      exact h.spans x (mem_of_handle hx)
    · intro z hz
      rw [← Option.some_inj.mp hz]
      rfl

theorem step_copyAssign (h : Inv s) (hi : (s.handle i).isSome) (hj : (s.handle j).isSome) :
    ∃ t, step s (.copyAssign i j) = some t ∧ Stepped s t := by
  obtain ⟨y, hy⟩ := Option.isSome_iff_exists.mp hi
  obtain ⟨x, hx⟩ := Option.isSome_iff_exists.mp hj
  obtain ⟨t, ht, hbal, hkept, hreleases, hdevices⟩ := ref_spec h.balanced (h.reference_pos hx)
  have hypos : y.cache = true → 0 < s.references y.metadata + x.holds y.metadata := fun hc =>
    Nat.add_pos_left (h.reference_pos hy hc) _
  obtain ⟨u, released, hu, hbal', hkept', hreleases', hdevices', hdrops⟩ := unref_spec hbal hypos
  have hrefs : referencesIn (s.handles.set i (some x)) = fun b => s.references b + x.holds b - y.holds b := by
    funext b
    have hset := referencesIn_set (handle_eq_some.mp hy) (some x) b
    rw [holds_eq] at hset
    rw [references]
    omega
  refine ⟨u.setHandles (s.handles.set i (some x)), ?_, ?_⟩
  · rw [step, hx, hy]
    change (s.ref x).bind (fun t => (t.unref y).bind fun t => some (t.setHandles (t.handles.set i (some x)))) = _
    rw [ht, Option.bind_some, hu, Option.bind_some, hkept'.handles, hkept.handles]
  · apply h.finish_drop hkept hreleases hdevices hbal _ hkept' hreleases' hdevices' hdrops hbal' hrefs
    · apply spans_set h.spans
      intro z hz
      rw [← Option.some_inj.mp hz]
      exact h.spans x (mem_of_handle hx)
    · -- the handle that is copied refers to its block already
      intro b
      have hle := holds_le_referencesIn (handle_eq_some.mp hx) b
      rw [references]
      omega

/-- A record is given another content. -/
theorem setInfo_inv (h : Inv s) {info info' : BlockInfo} (hinfo : s.infos b = some info)
    (hcount : info'.refcount = info.refcount) (hwriteback : info'.writeback = info.writeback) :
    Inv (s.setInfo b (some info')) := by
  have hcases : ∀ c, (s.setInfo b (some info')).infos c = none ↔ s.infos c = none := by
    intro c
    obtain rfl | hne := eq_or_ne c b
    · rw [infos_setInfo_self, hinfo]
      simp
    · rw [infos_setInfo_of_ne _ _ hne]
  refine ⟨?_, ?_, h.spans, ?_, h.obtained_lt, h.nodup, ?_, fun c hc hnone => h.lost c hc ((hcases c).mp hnone)⟩
  · intro c
    rw [hcases]
    refine ⟨?_, (h.balanced c).2⟩
    change (s.setInfo b (some info')).refcount c = s.references c
    rw [← (h.balanced c).1, refcount, refcount]
    obtain rfl | hne := eq_or_ne c b
    · rw [infos_setInfo_self, hinfo, Option.map_some, Option.map_some, hcount]
    · rw [infos_setInfo_of_ne _ _ hne]
  · intro c hc
    exact (hcases c).mpr (h.fresh c hc)
  · intro c info'' hc
    obtain rfl | hne := eq_or_ne c b
    · rw [infos_setInfo_self, Option.some_inj] at hc
      rw [← hc, hwriteback]
      exact h.writeback c info hinfo
    · rw [infos_setInfo_of_ne _ _ hne] at hc
      exact h.writeback c info'' hc
  · intro r hr
    obtain ⟨hlt, hgone⟩ := h.gone r hr
    exact ⟨hlt, (hcases _).mpr hgone⟩

theorem step_write (h : Inv s) (hi : (s.handle i).isSome) (data : Bytes) :
    ∃ t, step s (.write i data) = some t ∧ Stepped s t := by
  obtain ⟨x, hx⟩ := Option.isSome_iff_exists.mp hi
  have hspan := h.spans x (mem_of_handle hx)
  cases hc : x.cache with
  | false =>
    rw [BlockHandle.block, hc, if_neg (by decide)] at hspan
    refine ⟨s, ?_, h, releasesLast_none rfl rfl fun _ => le_rfl, (State.Kept.refl s).persists⟩
    rw [step, hx, Option.bind_eq_bind, Option.bind_some, hspan]
  | true =>
    rw [block_of_cache hc] at hspan
    obtain ⟨info, hinfo, -⟩ := h.balanced.info (h.reference_pos hx hc)
    refine ⟨s.setInfo x.metadata (some { info with buffer := data }), ?_, setInfo_inv h hinfo rfl rfl,
      releasesLast_none rfl rfl fun _ => le_rfl, le_rfl, ?_⟩
    · rw [step, hx, Option.bind_eq_bind, Option.bind_some, hspan]
      dsimp only
      rw [hinfo, Option.map_some]
    · intro b hb info' hinfo'
      obtain rfl | hne := eq_or_ne b x.metadata
      · rw [infos_setInfo_self, Option.some_inj] at hinfo'
        rw [← hinfo']
        exact ⟨info, hinfo, rfl, rfl, rfl⟩
      · rw [infos_setInfo_of_ne _ _ hne] at hinfo'
        exact ⟨info', hinfo', rfl, rfl, rfl⟩

theorem handle_setHandle_self {info : BlockInfo} (hx : s.handle i = some x) :
    (s.setHandle i info).handle i = some { cache := true, metadata := s.next, span := some s.next } := by
  rw [handle_eq_some] at hx ⊢
  exact List.getElem?_set_self (List.getElem?_eq_some_iff.mp hx).1

theorem handle_setHandle_of_ne (s : State) (info : BlockInfo) (hij : i ≠ j) :
    (s.setHandle i info).handle j = s.handle j := by
  rw [handle, handle, setHandle]
  dsimp only
  rw [List.getElem?_set_ne hij]

theorem infos_setHandle_self (s : State) (i : Nat) (info : BlockInfo) : (s.setHandle i info).infos s.next = some info :=
  Function.update_self _ _ _

theorem infos_setHandle_of_ne (s : State) (i : Nat) (info : BlockInfo) (hb : b ≠ s.next) :
    (s.setHandle i info).infos b = s.infos b := Function.update_of_ne hb _ _

theorem references_setHandle {info : BlockInfo} (hx : s.handle i = some x) (hc : x.cache = false) (b : Nat) :
    (s.setHandle i info).references b = s.references b + if b = s.next then 1 else 0 := by
  have hset := referencesIn_set (handle_eq_some.mp hx) (some { cache := true, metadata := s.next, span := some s.next }) b
  rw [holds_of_not_cache hc, Nat.add_zero] at hset
  rw [references, references, setHandle, hset]
  congr 1
  rw [show blockAt (some { cache := true, metadata := s.next, span := some s.next }) = some s.next from rfl]
  by_cases hb : b = s.next
  · rw [if_pos hb, if_pos (congrArg some hb.symm)]
  · rw [if_neg hb, if_neg fun heq => hb (Option.some_inj.mp heq).symm]

/-- A new block is given to a handle that holds none. -/
theorem setHandle_inv (h : Inv s) (hx : s.handle i = some x) (hc : x.cache = false) (info : BlockInfo)
    (hcount : info.refcount = 1) (hwriteback : info.writeback = false) : Inv (s.setHandle i info) := by
  have hnext : s.references s.next = 0 := ((h.balanced s.next).2).mp (h.fresh s.next le_rfl)
  refine ⟨?_, ?_, ?_, ?_, ?_, h.nodup, ?_, ?_⟩
  · intro b
    rw [references_setHandle hx hc, refcount]
    obtain rfl | hne := eq_or_ne b s.next
    · rw [infos_setHandle_self, hnext, if_pos rfl, Option.map_some, hcount]
      exact ⟨rfl, iff_of_false (by simp) (by omega)⟩
    · rw [infos_setHandle_of_ne _ _ _ hne, if_neg hne, Nat.add_zero]
      exact h.balanced b
  · intro b hb
    have hb' : s.next + 1 ≤ b := hb
    rw [infos_setHandle_of_ne _ _ _ (by omega)]
    exact h.fresh b (by omega)
  · apply spans_set h.spans
    intro z hz
    rw [← Option.some_inj.mp hz]
    rfl
  · intro b info' hinfo'
    obtain rfl | hne := eq_or_ne b s.next
    · rw [infos_setHandle_self, Option.some_inj] at hinfo'
      rw [← hinfo', hwriteback]
      refine iff_of_false (by decide) fun hmem => ?_
      exact absurd (h.obtained_lt _ hmem) (lt_irrefl _)
    · rw [infos_setHandle_of_ne _ _ _ hne] at hinfo'
      exact h.writeback b info' hinfo'
  · intro p hp
    exact Nat.lt_succ_of_lt (h.obtained_lt p hp)
  · intro r hr
    obtain ⟨hlt, hgone⟩ := h.gone r hr
    refine ⟨Nat.lt_succ_of_lt hlt, ?_⟩
    rw [infos_setHandle_of_ne _ _ _ (by omega)]
    exact hgone
  · intro b hb hnone
    obtain rfl | hne := eq_or_ne b s.next
    · rw [infos_setHandle_self] at hnone
      exact absurd hnone (by simp)
    · rw [infos_setHandle_of_ne _ _ _ hne] at hnone
      exact h.lost b (lt_of_le_of_ne (Nat.lt_succ_iff.mp hb) hne) hnone

end XviOs.Storage
