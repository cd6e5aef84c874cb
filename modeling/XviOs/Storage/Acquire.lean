import Mathlib.Tactic
import XviOs.Storage.HandleSteps

namespace XviOs.Storage

open Library.LittleEndian Library.Runs State
open Fat (BlockDev)

variable {s t u : State} {x y : BlockHandle} {i j b k device lba r : Nat} {memory : Memory} {out : List Nat}
  {content : Nat → Option Bytes}

/-- The handle that is given for a block. -/
def handleOf (b : Nat) : BlockHandle := { cache := true, metadata := b, span := some b }

/-- The first `r` of the handles hold new blocks, which hold what was read or what the memory held. -/
structure Acquired (s t : State) (device lba : Nat) (content : Nat → Option Bytes) (first : Nat) (out : List Nat)
    (r : Nat) : Prop where
  le : r ≤ out.length
  next : t.next = s.next + r
  new : ∀ k < r, ∃ place buffer, out[k]? = some place ∧ content (first + k) = some buffer ∧
    t.handle place = some (handleOf (s.next + k)) ∧ t.infos (s.next + k) = some ⟨1, buffer, device, lba, false⟩
  others : ∀ p, p ∉ out → t.handle p = s.handle p
  infos : ∀ b < s.next, t.infos b = s.infos b
  devices : t.devices = s.devices
  obtained : t.obtained = s.obtained
  releases : t.releases = s.releases

theorem Acquired.zero (s : State) (first : Nat) (out : List Nat) : Acquired s s device lba content first out 0 :=
  ⟨Nat.zero_le _, rfl, fun k hk => absurd hk (Nat.not_lt_zero k), fun _ _ => rfl, fun _ _ => rfl, rfl, rfl, rfl⟩

theorem Acquired.succ {buffer : Bytes} {first place : Nat} (hplace : s.handle place = some x) (hnot : place ∉ out)
    (hcontent : content first = some buffer)
    (h : Acquired (s.setHandle place ⟨1, buffer, device, lba, false⟩) t device lba content (first + 1) out r) :
    Acquired s t device lba content first (place :: out) (r + 1) := by
  have hnext : (s.setHandle place ⟨1, buffer, device, lba, false⟩).next = s.next + 1 := rfl
  refine ⟨?_, ?_, ?_, ?_, ?_, h.devices, h.obtained, h.releases⟩
  · have hle := h.le
    rw [List.length_cons]
    omega
  · rw [h.next, hnext]
    omega
  · intro k hk
    cases k with
    | zero =>
      refine ⟨place, buffer, rfl, hcontent, ?_, ?_⟩
      · rw [h.others place hnot]
        exact handle_setHandle_self hplace
      · rw [h.infos _ (by rw [hnext]; omega)]
        exact infos_setHandle_self s place _
    | succ k =>
      obtain ⟨p, data, hp, hdata, hhandle, hinfo⟩ := h.new k (by omega)
      rw [hnext, Nat.add_assoc, Nat.add_comm 1 k] at hhandle hinfo
      rw [Nat.add_assoc, Nat.add_comm 1 k] at hdata
      exact ⟨p, data, hp, hdata, hhandle, hinfo⟩
  · intro p hp
    obtain ⟨hne, hp⟩ := not_or.mp (List.mem_cons.not.mp hp)
    rw [h.others p hp]
    exact handle_setHandle_of_ne s _ (Ne.symm hne)
  · intro b hb
    rw [h.infos b (by rw [hnext]; omega)]
    exact infos_setHandle_of_ne s place _ (by omega)

/-- Nothing fails for the `i`-th block. -/
def Obtains (memory : Memory) (content : Nat → Option Bytes) (i : Nat) : Prop :=
  memory.bufferFails i = false ∧ content i ≠ none ∧ memory.infoFails i = false

/-- `r` is the number of the blocks before the first failure. -/
def BeforeFailure (memory : Memory) (content : Nat → Option Bytes) (first length r : Nat) : Prop :=
  ∀ k, k < r ↔ k < length ∧ ∀ j ≤ k, Obtains memory content (first + j)

theorem beforeFailure_zero {first : Nat} (h : ¬ Obtains memory content first) (length : Nat) :
    BeforeFailure memory content first length 0 := by
  intro k
  refine iff_of_false (Nat.not_lt_zero k) ?_
  rintro ⟨-, hk⟩
  exact h (hk 0 (Nat.zero_le k))

theorem BeforeFailure.succ {first length : Nat} (hfirst : Obtains memory content first)
    (h : BeforeFailure memory content (first + 1) length r) : BeforeFailure memory content first (length + 1) (r + 1) := by
  intro k
  cases k with
  | zero =>
    refine iff_of_true (Nat.succ_pos r) ⟨Nat.succ_pos length, ?_⟩
    intro j hj
    rw [Nat.le_zero.mp hj]
    exact hfirst
  | succ k =>
    rw [Nat.succ_lt_succ_iff, Nat.succ_lt_succ_iff, h k]
    refine and_congr_right fun _ => ⟨?_, ?_⟩
    · intro hk j hj
      cases j with
      | zero => exact hfirst
      | succ j =>
        have hnext := hk j (Nat.succ_le_succ_iff.mp hj)
        rwa [Nat.add_assoc, Nat.add_comm 1 j] at hnext
    · intro hk j hj
      have hnext := hk (j + 1) (Nat.succ_le_succ hj)
      rwa [Nat.add_comm j 1, ← Nat.add_assoc] at hnext

/-- The loop gives blocks to handles that hold none, until an error or the end. -/
theorem acquireLoop_spec (h : Inv s) (hout : out.Nodup) (hempty : ∀ p ∈ out, ∃ x, s.handle p = some x ∧ x.cache = false)
    (first : Nat) :
    ∃ t r error, acquireLoop device lba memory content out first s = (t, first + r, error) ∧
      Acquired s t device lba content first out r ∧ Inv t ∧ BeforeFailure memory content first out.length r := by
  induction out generalizing s first with
  | nil => exact ⟨s, 0, none, rfl, .zero s first [], h, fun k => iff_of_false (Nat.not_lt_zero k) (by simp)⟩
  | cons place out ih =>
    obtain ⟨hnot, hout⟩ := List.nodup_cons.mp hout
    obtain ⟨x, hx, hc⟩ := hempty place List.mem_cons_self
    rw [acquireLoop]
    by_cases hbuffer : memory.bufferFails first
    · refine ⟨s, 0, some .notEnoughMemory, if_pos hbuffer, .zero s first _, h, beforeFailure_zero ?_ _⟩
      rintro ⟨hfalse, -⟩
      exact absurd (hbuffer.symm.trans hfalse) (by decide)
    rw [if_neg hbuffer]
    cases hcontent : content first with
    | none =>
      refine ⟨s, 0, some .device, rfl, .zero s first _, h, beforeFailure_zero ?_ _⟩
      rintro ⟨-, hsome, -⟩
      exact hsome hcontent
    | some buffer =>
      dsimp only
      by_cases hinfo : memory.infoFails first
      · refine ⟨s, 0, some .notEnoughMemory, if_pos hinfo, .zero s first _, h, beforeFailure_zero ?_ _⟩
        rintro ⟨-, -, hfalse⟩
        exact absurd (hinfo.symm.trans hfalse) (by decide)
      · have hempty' : ∀ p ∈ out, ∃ z,
            (s.setHandle place ⟨1, buffer, device, lba, false⟩).handle p = some z ∧ z.cache = false := by
          intro p hp
          obtain ⟨z, hz, hzc⟩ := hempty p (List.mem_cons_of_mem _ hp)
          refine ⟨z, ?_, hzc⟩
          rw [handle_setHandle_of_ne s _ (by rintro rfl; exact hnot hp), hz]
        obtain ⟨t, r, error, ht, hacquired, hinv, hend⟩ :=
          ih (setHandle_inv h hx hc ⟨1, buffer, device, lba, false⟩ rfl rfl) hout hempty' (first + 1)
        refine ⟨t, r + 1, error, ?_, hacquired.succ hx hnot hcontent, hinv, hend.succ ⟨?_, ?_, ?_⟩⟩
        · rw [if_neg hinfo, ht, Nat.add_assoc, Nat.add_comm 1 r]
        · exact Bool.eq_false_iff.mpr hbuffer
        · rw [hcontent]
          exact Option.some_ne_none _
        · exact Bool.eq_false_iff.mpr hinfo

/-- The result is the count of the blocks, or the error that came before the first one. -/
def Counts (r : Nat) (result : Except Errc Nat) : Prop := result = .ok r ∨ r = 0 ∧ ∃ error, result = .error error

theorem counts_resultOf (r : Nat) (error : Option Errc) : Counts r (resultOf r error) := by
  cases error with
  | none => exact Or.inl rfl
  | some error =>
    rw [resultOf]
    by_cases hr : r > 0
    · exact Or.inl (if_pos hr)
    · exact Or.inr ⟨by omega, error, if_neg hr⟩

theorem read_spec (h : Inv s) (device lba : Nat) (memory : Memory) (hout : out.Nodup)
    (hempty : ∀ p ∈ out, ∃ x, s.handle p = some x ∧ x.cache = false) :
    ∃ t r result, s.read device lba memory out = (t, result) ∧ Counts r result ∧
      Acquired s t device lba (fun _ => (s.devices device).readBlock lba) 0 out r ∧ Inv t ∧
        BeforeFailure memory (fun _ => (s.devices device).readBlock lba) 0 out.length r := by
  obtain ⟨t, r, error, ht, hacquired, hinv, hend⟩ : ∃ t r error,
      acquireLoop device lba memory (fun _ => (s.devices device).readBlock lba) out 0 s = (t, 0 + r, error) ∧
        Acquired s t device lba (fun _ => (s.devices device).readBlock lba) 0 out r ∧ Inv t ∧
          BeforeFailure memory (fun _ => (s.devices device).readBlock lba) 0 out.length r :=
    acquireLoop_spec h hout hempty 0
  rw [Nat.zero_add] at ht
  exact ⟨t, r, resultOf r error, by rw [State.read, ht], counts_resultOf r error, hacquired, hinv, hend⟩

theorem allocateEmpty_spec (h : Inv s) (device lba : Nat) (memory : Memory) (hout : out.Nodup)
    (hempty : ∀ p ∈ out, ∃ x, s.handle p = some x ∧ x.cache = false) :
    ∃ t r result, s.allocateEmpty device lba memory out = (t, result) ∧ Counts r result ∧
      Acquired s t device lba (fun i => some (memory.content i)) 0 out r ∧ Inv t ∧
        BeforeFailure memory (fun i => some (memory.content i)) 0 out.length r := by
  obtain ⟨t, r, error, ht, hacquired, hinv, hend⟩ : ∃ t r error,
      acquireLoop device lba memory (fun i => some (memory.content i)) out 0 s = (t, 0 + r, error) ∧
        Acquired s t device lba (fun i => some (memory.content i)) 0 out r ∧ Inv t ∧
          BeforeFailure memory (fun i => some (memory.content i)) 0 out.length r :=
    acquireLoop_spec h hout hempty 0
  rw [Nat.zero_add] at ht
  exact ⟨t, r, resultOf r error, by rw [State.allocateEmpty, ht], counts_resultOf r error, hacquired, hinv, hend⟩

/-- The records whose write-back flag is set, and nothing else, change. -/
structure Marked (s t : State) (marked : Nat → Prop) : Prop where
  set : ∀ b, marked b → t.infos b = (s.infos b).map fun info => { info with writeback := true }
  others : ∀ b, ¬ marked b → t.infos b = s.infos b
  handles : t.handles = s.handles
  next : t.next = s.next
  devices : t.devices = s.devices
  obtained : t.obtained = s.obtained
  releases : t.releases = s.releases

theorem marked_markWriteback (hx : s.handle i = some x) : Marked s (s.markWriteback i) (· = x.metadata) := by
  have hmark : s.markWriteback i =
      s.setInfo x.metadata ((s.infos x.metadata).map fun info => { info with writeback := true }) := by
    rw [markWriteback, hx]
  rw [hmark]
  refine ⟨?_, ?_, rfl, rfl, rfl, rfl, rfl⟩
  · rintro b rfl
    exact infos_setInfo_self s _ _
  · intro b hb
    exact infos_setInfo_of_ne s _ hb

theorem Marked.trans {p q both : Nat → Prop} (h : Marked s t p) (h' : Marked t u q) (hboth : ∀ b, both b ↔ p b ∨ q b) :
    Marked s u both := by
  refine ⟨?_, ?_, h'.handles.trans h.handles, h'.next.trans h.next, h'.devices.trans h.devices,
    h'.obtained.trans h.obtained, h'.releases.trans h.releases⟩
  · intro b hb
    by_cases hq : q b
    · by_cases hp : p b
      · rw [h'.set b hq, h.set b hp, Option.map_map]
        rfl
      · rw [h'.set b hq, h.others b hp]
    · rw [h'.others b hq, h.set b (((hboth b).mp hb).resolve_right hq)]
  · intro b hb
    obtain ⟨hp, hq⟩ := not_or.mp ((hboth b).not.mp hb)
    rw [h'.others b hq, h.others b hp]

theorem marked_foldl (places : List Nat) (g : Nat → Nat)
    (hplaces : ∀ k place, places[k]? = some place → ∃ x, s.handle place = some x ∧ x.metadata = g k) :
    Marked s (places.foldl markWriteback s) (fun b => ∃ k < places.length, b = g k) := by
  induction places generalizing s g with
  | nil => exact ⟨fun b hb => absurd hb (by simp), fun _ _ => rfl, rfl, rfl, rfl, rfl, rfl⟩
  | cons place places ih =>
    obtain ⟨x, hx, hmeta⟩ := hplaces 0 place rfl
    have hfirst := marked_markWriteback hx
    rw [hmeta] at hfirst
    have hrest : Marked (s.markWriteback place) (places.foldl markWriteback (s.markWriteback place))
        (fun b => ∃ k < places.length, b = g (k + 1)) := by
      apply ih
      intro k p hp
      obtain ⟨z, hz, hz'⟩ := hplaces (k + 1) p hp
      rw [State.handle] at hz
      exact ⟨z, by rw [State.handle, hfirst.handles, hz], hz'⟩
    apply hfirst.trans hrest
    intro b
    constructor
    · rintro ⟨k, hk, rfl⟩
      cases k with
      | zero => exact Or.inl rfl
      | succ k => exact Or.inr ⟨k, Nat.lt_of_succ_lt_succ hk, rfl⟩
    · rintro (rfl | ⟨k, hk, rfl⟩)
      · exact ⟨0, Nat.succ_pos _, rfl⟩
      · exact ⟨k + 1, Nat.succ_lt_succ hk, rfl⟩

/-- What a call leaves, whichever it is: blocks as they were acquired, with the write-back flag of the call. -/
structure Given (s t : State) (how : Acquire) (device lba : Nat) (content : Nat → Option Bytes) (out : List Nat)
    (r : Nat) : Prop where
  le : r ≤ out.length
  next : t.next = s.next + r
  new : ∀ k < r, ∃ place buffer, out[k]? = some place ∧ content k = some buffer ∧
    t.handle place = some (handleOf (s.next + k)) ∧
      t.infos (s.next + k) = some ⟨1, buffer, device, lba, decide (how = .readForUpdate)⟩
  others : ∀ p, p ∉ out → t.handle p = s.handle p
  infos : ∀ b < s.next, t.infos b = s.infos b
  devices : t.devices = s.devices
  obtained : t.obtained = s.obtained
  releases : t.releases = s.releases
  balanced : t.Balanced t.references
  fresh : ∀ b, t.next ≤ b → t.infos b = none
  spans : ∀ x, some x ∈ t.handles → x.span = x.block

theorem Acquired.given {how : Acquire} (h : Acquired s t device lba content 0 out r) (hinv : Inv t)
    (hhow : how ≠ .readForUpdate) : Given s t how device lba content out r := by
  refine ⟨h.le, h.next, ?_, h.others, h.infos, h.devices, h.obtained, h.releases, hinv.balanced, hinv.fresh, hinv.spans⟩
  intro k hk
  obtain ⟨place, buffer, hplace, hbuffer, hhandle, hinfo⟩ := h.new k hk
  rw [Nat.zero_add] at hbuffer
  exact ⟨place, buffer, hplace, hbuffer, hhandle, by rw [hinfo, decide_eq_false hhow]⟩

theorem Marked.map_info {p : Nat → Prop} (h : Marked s t p) (b : Nat) :
    t.infos b = s.infos b ∨ t.infos b = (s.infos b).map fun info => { info with writeback := true } := by
  by_cases hb : p b
  · exact Or.inr (h.set b hb)
  · exact Or.inl (h.others b hb)

theorem Marked.none_iff {p : Nat → Prop} (h : Marked s t p) (b : Nat) : t.infos b = none ↔ s.infos b = none := by
  obtain heq | heq := h.map_info b
  · rw [heq]
  · rw [heq, Option.map_eq_none_iff]

theorem Marked.balanced {p : Nat → Prop} (h : Marked s t p) (hinv : Inv s) : t.Balanced t.references := by
  intro b
  have hrefs : t.references b = s.references b := by rw [references, references, h.handles]
  have hcount : t.refcount b = s.refcount b := by
    rw [refcount, refcount]
    obtain heq | heq := h.map_info b
    · rw [heq]
    · rw [heq, Option.map_map]
      rfl
  rw [hrefs, hcount, h.none_iff]
  exact hinv.balanced b

theorem Acquired.given_marked (h : Acquired s t device lba content 0 out r) (hinv : Inv t)
    (hmarked : Marked t u (fun b => ∃ k < r, b = s.next + k)) : Given s u .readForUpdate device lba content out r := by
  refine ⟨h.le, hmarked.next.trans h.next, ?_, ?_, ?_, hmarked.devices.trans h.devices,
    hmarked.obtained.trans h.obtained, hmarked.releases.trans h.releases, hmarked.balanced hinv, ?_, ?_⟩
  · intro k hk
    obtain ⟨place, buffer, hplace, hbuffer, hhandle, hinfo⟩ := h.new k hk
    rw [Nat.zero_add] at hbuffer
    refine ⟨place, buffer, hplace, hbuffer, ?_, ?_⟩
    · rw [State.handle, hmarked.handles]
      exact hhandle
    · rw [hmarked.set _ ⟨k, hk, rfl⟩, hinfo, Option.map_some]
      rfl
  · intro p hp
    rw [← h.others p hp, State.handle, State.handle, hmarked.handles]
  · intro b hb
    rw [hmarked.others b (by rintro ⟨k, -, rfl⟩; omega), h.infos b hb]
  · intro b hb
    rw [hmarked.none_iff]
    exact hinv.fresh b (hmarked.next ▸ hb)
  · intro x hx
    exact hinv.spans x (hmarked.handles ▸ hx)

/-- The content that a call gives its blocks. Every block of a read is read from the same place of the device. -/
def contentOf (s : State) (how : Acquire) (device lba : Nat) (memory : Memory) : Nat → Option Bytes :=
  match how with
  | .allocateEmpty => fun i => some (memory.content i)
  | _ => fun _ => (s.devices device).readBlock lba

theorem acquire_spec (h : Inv s) (how : Acquire) (device lba : Nat) (memory : Memory) (hout : out.Nodup)
    (hempty : ∀ p ∈ out, ∃ x, s.handle p = some x ∧ x.cache = false) :
    ∃ t r result, s.acquire how device lba memory out = (t, result) ∧ Counts r result ∧
      Given s t how device lba (contentOf s how device lba memory) out r ∧
        BeforeFailure memory (contentOf s how device lba memory) 0 out.length r := by
  cases how with
  | read =>
    obtain ⟨t, r, result, ht, hr, hacquired, hinv, hend⟩ := read_spec h device lba memory hout hempty
    exact ⟨t, r, result, ht, hr, hacquired.given hinv (by decide), hend⟩
  | allocateEmpty =>
    obtain ⟨t, r, result, ht, hr, hacquired, hinv, hend⟩ := allocateEmpty_spec h device lba memory hout hempty
    exact ⟨t, r, result, ht, hr, hacquired.given hinv (by decide), hend⟩
  | readForUpdate =>
    obtain ⟨t, r, result, ht, hr, hacquired, hinv, hend⟩ := read_spec h device lba memory hout hempty
    obtain rfl | ⟨rfl, error, rfl⟩ := hr
    · refine ⟨(out.take r).foldl markWriteback t, r, .ok r, ?_, Or.inl rfl, ?_, hend⟩
      · rw [State.acquire, State.readForUpdate, ht]
      · apply hacquired.given_marked hinv
        have hlen : (out.take r).length = r := by
          rw [List.length_take]
          exact Nat.min_eq_left hacquired.le
        have hmarked := marked_foldl (s := t) (out.take r) (fun k => s.next + k) (by
          intro k place hplace
          have hk : k < r := hlen ▸ (List.getElem?_eq_some_iff.mp hplace).1
          obtain ⟨place', buffer, hplace', -, hhandle, -⟩ := hacquired.new k hk
          rw [List.getElem?_take_of_lt hk, hplace', Option.some_inj] at hplace
          exact ⟨_, hplace ▸ hhandle, rfl⟩)
        rw [hlen] at hmarked
        exact hmarked
    · refine ⟨t, 0, .error error, ?_, Or.inr ⟨rfl, error, rfl⟩, ?_, hend⟩
      · rw [State.acquire, State.readForUpdate, ht]
      · apply hacquired.given_marked hinv
        exact ⟨fun b hb => by obtain ⟨k, hk, -⟩ := hb; omega, fun _ _ => rfl, rfl, rfl, rfl, rfl, rfl⟩

theorem step_acquire (h : Inv s) (how : Acquire) (hout : out.Nodup)
    (hempty : ∀ p ∈ out, ∃ x, s.handle p = some x ∧ x.cache = false) :
    ∃ t, step s (.acquire how device lba memory out) = some t ∧ Stepped s t := by
  obtain ⟨t, r, result, ht, -, hgiven, -⟩ := acquire_spec h how device lba memory hout hempty
  have hnext := hgiven.next
  have hobtained : ∀ b how', (b, how') ∈ s.obtained ++ (List.range' s.next (t.next - s.next)).map (fun b => (b, how)) ↔
      (b, how') ∈ s.obtained ∨ (s.next ≤ b ∧ b < t.next) ∧ how = how' := by
    intro b how'
    rw [List.mem_append, List.mem_map]
    refine or_congr_right ⟨?_, ?_⟩
    · rintro ⟨c, hc, heq⟩
      obtain ⟨rfl, rfl⟩ := Prod.mk.inj heq
      have hrange := List.mem_range'_1.mp hc
      exact ⟨by omega, rfl⟩
    · rintro ⟨hb, rfl⟩
      exact ⟨b, List.mem_range'_1.mpr (by omega), rfl⟩
  refine ⟨_, rfl, ?_, ?_, ?_⟩
  · rw [ht]
    refine ⟨hgiven.balanced, hgiven.fresh, hgiven.spans, ?_, ?_, ?_, ?_, ?_⟩
    · intro b info hinfo
      rw [hobtained]
      change t.infos b = some info at hinfo
      by_cases hb : b < s.next
      · rw [hgiven.infos b hb] at hinfo
        rw [h.writeback b info hinfo, or_iff_left]
        omega
      · obtain ⟨k, rfl⟩ : ∃ k, b = s.next + k := ⟨b - s.next, by omega⟩
        have hk : k < r := by
          by_contra hge
          rw [hgiven.fresh _ (by omega)] at hinfo
          exact absurd hinfo (by simp)
        obtain ⟨place, buffer, -, -, -, hnew⟩ := hgiven.new k hk
        obtain rfl := Option.some_inj.mp (hnew.symm.trans hinfo)
        rw [decide_eq_true_eq, or_iff_right, and_iff_right (by omega)]
        intro hold
        have hlt := h.obtained_lt _ hold
        dsimp only at hlt
        omega
    · rintro ⟨b, how'⟩ hp
      change b < t.next
      obtain hold | ⟨hb, -⟩ := (hobtained b how').mp hp
      · have hlt := h.obtained_lt _ hold
        dsimp only at hlt
        omega
      · omega
    · change (t.releases.map Release.block).Nodup
      rw [hgiven.releases]
      exact h.nodup
    · intro q hq
      change q ∈ t.releases at hq
      rw [hgiven.releases] at hq
      obtain ⟨hlt, hgone⟩ := h.gone q hq
      change q.block < t.next ∧ t.infos q.block = none
      exact ⟨by omega, by rw [hgiven.infos _ hlt, hgone]⟩
    · intro b hb hnone
      change b < t.next at hb
      change t.infos b = none at hnone
      change b ∈ t.releases.map Release.block
      rw [hgiven.releases]
      by_cases hold : b < s.next
      · exact h.lost b hold (hgiven.infos b hold ▸ hnone)
      · obtain ⟨k, rfl⟩ : ∃ k, b = s.next + k := ⟨b - s.next, by omega⟩
        obtain ⟨place, buffer, -, -, -, hnew⟩ := hgiven.new k (by omega)
        exact absurd (hnew.symm.trans hnone) (by simp)
  · rw [ht]
    apply releasesLast_none hgiven.releases hgiven.devices
    intro b
    by_cases hb : b < s.next
    · rw [← (h.balanced b).1, ← (hgiven.balanced b).1, refcount, refcount, hgiven.infos b hb]
    · rw [((h.balanced b).2).mp (h.fresh b (not_lt.mp hb))]
      exact Nat.zero_le _
  · rw [ht]
    refine ⟨?_, ?_⟩
    · change s.next ≤ t.next
      omega
    · intro b hb info' hinfo'
      change t.infos b = some info' at hinfo'
      rw [hgiven.infos b hb] at hinfo'
      exact ⟨info', hinfo', rfl, rfl, rfl⟩

end XviOs.Storage
