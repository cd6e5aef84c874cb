import Mathlib.Tactic
import XviOs.Storage.Acquire

namespace XviOs.Storage

open Library.LittleEndian Library.Runs State
open Fat (BlockDev)

variable {s t : State} {ops : List Op} {op : Op} {devices : Nat → BlockDev} {b : Nat}

theorem step_spec (h : Inv s) (hop : Allowed s op) : ∃ t, step s op = some t ∧ Stepped s t := by
  cases op with
  | construct => exact step_construct h
  | acquire how device lba memory out => exact step_acquire h how hop.1 hop.2
  | copy j => exact step_copy h hop
  | move j => exact step_move h hop
  | copyAssign i j => exact step_copyAssign h hop.1 hop.2
  | moveAssign i j => exact step_moveAssign h hop.1 hop.2
  | swap i j => exact step_swap h hop.1 hop.2
  | destroy i => exact step_destroy h hop
  | write i data => exact step_write h hop data

theorem stepped (h : Inv s) (hop : Allowed s op) (ht : step s op = some t) : Stepped s t := by
  obtain ⟨t', ht', hstepped⟩ := step_spec h hop
  obtain rfl := Option.some_inj.mp (ht.symm.trans ht')
  exact hstepped

theorem inv_run (h : Execution step Allowed s ops t) (hs : Inv s) : Inv t :=
  h.invariant hs fun _ _ _ hinv hop ht => (stepped hinv hop ht).inv

theorem Inv.released_iff (h : Inv s) (hb : b < s.next) : b ∈ s.releases.map Release.block ↔ s.references b = 0 := by
  constructor
  · intro hmem
    obtain ⟨r, hr, rfl⟩ := List.mem_map.mp hmem
    exact ((h.balanced r.block).2).mp (h.gone r hr).2
  · intro hzero
    exact h.lost b hb (((h.balanced b).2).mpr hzero)

/-- After every run the reference counts are the counts of the handles, the blocks that no handle refers to are
released, once each, and every further step is defined and releases what it drops the last handle of. -/
theorem run_refcount (h : Execution step Allowed { devices } ops s) :
    (∀ b, s.refcount b = s.references b) ∧
      (s.releases.map Release.block).Nodup ∧
      (∀ b < s.next, b ∈ s.releases.map Release.block ↔ s.references b = 0) ∧
      ∀ op, Allowed s op → ∃ t, step s op = some t ∧ ReleasesLast s t := by
  have hinv := inv_run h (inv_initial devices)
  refine ⟨fun b => (hinv.balanced b).1, hinv.nodup, fun b hb => hinv.released_iff hb, ?_⟩
  intro op hop
  obtain ⟨t, ht, hstepped⟩ := step_spec hinv hop
  exact ⟨t, ht, hstepped.releases⟩

/-- A block that is obtained for update, copied over another handle and assigned to itself has two references. -/
theorem run_refcount_copied :
    ∃ s, Execution step Allowed { devices := fun _ => ⟨fun _ _ => 7, fun _ => false, fun _ => false, 0⟩ }
        [.construct, .construct, .acquire .readForUpdate 0 5 ⟨fun _ => false, fun _ => false, fun _ _ => 0⟩ [0],
          .copyAssign 1 0, .copyAssign 1 1] s ∧
      s.references 0 = 2 ∧ s.refcount 0 = s.references 0 ∧ ∃ t, step s (.destroy 0) = some t ∧ ReleasesLast s t := by
  have h : Execution step Allowed { devices := fun _ => ⟨fun _ _ => 7, fun _ => false, fun _ => false, 0⟩ }
      [.construct, .construct, .acquire .readForUpdate 0 5 ⟨fun _ => false, fun _ => false, fun _ _ => 0⟩ [0],
        .copyAssign 1 0, .copyAssign 1 1] _ :=
    .snoc (.snoc (.snoc (.snoc (.snoc .nil trivial rfl) trivial rfl) ⟨by decide, fun i hi => ⟨{}, by
      obtain rfl := List.mem_singleton.mp hi
      exact ⟨rfl, rfl⟩⟩⟩ rfl) ⟨rfl, rfl⟩ rfl) ⟨rfl, rfl⟩ rfl
  exact ⟨_, h, rfl, (run_refcount h).1 0, (run_refcount h).2.2.2 (.destroy 0) rfl⟩

end XviOs.Storage

namespace XviOs.Storage

open Library.LittleEndian Library.Runs State
open Fat (BlockDev)

/-- What the span of a handle shows. -/
def State.shows (s : State) (h : BlockHandle) : Option Bytes := h.span.bind fun b => (s.infos b).map BlockInfo.buffer

/-- Every handle that a successful call gives shows its own block of the device, and whatever happens after the call, the
release of what it was given for update or empty is one write of what it shows then, to its own block. -/
def KeepsApart (s : State) (how : Acquire) (device lba : Nat) (memory : Memory) (out : List Nat) : Prop :=
  ∀ t r, step s (.acquire how device lba memory out) = some t → (s.acquire how device lba memory out).2 = .ok r →
    ∀ i < r, ∃ x, (out[i]?).bind t.handle = some x ∧
      (how ≠ .allocateEmpty → t.shows x = some ((s.devices device).blocks (lba + i))) ∧
      (how ≠ .read → ∀ ops u op v, Execution step Allowed t ops u → Allowed u op → step u op = some v →
        0 < u.references x.metadata → v.references x.metadata = 0 →
          ∀ write, ⟨x.metadata, write⟩ ∈ v.releases ↔
            ∃ buffer, u.shows x = some buffer ∧ write = some (device, lba + i, buffer))

/-- The blocks that are obtained, which are those before the first failure, are the same when they are read, no other
than the first when they are read for update, and none when they are empty. -/
def StaysApart (s : State) (how : Acquire) (device lba : Nat) (memory : Memory) (out : List Nat) : Prop :=
  ∀ k < out.length, (∀ j ≤ k, Obtains memory (contentOf s how device lba memory) j) →
    match how with
    | .read => (s.devices device).blocks (lba + k) = (s.devices device).blocks lba
    | .readForUpdate => k = 0
    | .allocateEmpty => False

variable {s t u v : State} {ops : List Op} {op : Op} {devices : Nat → BlockDev} {how : Acquire} {memory : Memory}
  {out : List Nat} {y : BlockHandle} {info : BlockInfo} {b device i lba r : Nat}

section Later

theorem Persists.refl (s : State) : Persists s s := (State.Kept.refl s).persists

theorem Persists.trans (h : Persists s t) (h' : Persists t u) : Persists s u := by
  refine ⟨h.next.trans h'.next, ?_⟩
  intro b hb info'' hinfo''
  obtain ⟨info', hinfo', hdevice', hlba', hwriteback'⟩ := h'.infos b (Nat.lt_of_lt_of_le hb h.next) info'' hinfo''
  obtain ⟨info, hinfo, hdevice, hlba, hwriteback⟩ := h.infos b hb info' hinfo'
  exact ⟨info, hinfo, hdevice'.trans hdevice, hlba'.trans hlba, hwriteback'.trans hwriteback⟩

theorem persists_run (h : Execution step Allowed s ops t) (hs : Inv s) : Inv t ∧ Persists s t := by
  apply h.invariant ⟨hs, .refl s⟩
  rintro t u op ⟨hinv, hpersists⟩ hop hu
  have hstepped := stepped hinv hop hu
  exact ⟨hstepped.inv, hpersists.trans hstepped.persists⟩

/-- A block that was there at the start of a run is released for the place that it was there for. -/
theorem release_last (hs : Inv s) (hb : b < s.next) (hinfo : s.infos b = some info)
    (hrun : Execution step Allowed s ops u) (hop : Allowed u op) (hv : step u op = some v)
    (hpos : 0 < u.references b) (hzero : v.references b = 0) :
    ∃ info', u.infos b = some info' ∧
      (info'.device = info.device ∧ info'.lba = info.lba ∧ info'.writeback = info.writeback) ∧
        ∀ write, ⟨b, write⟩ ∈ v.releases ↔ write = writeOf info' := by
  obtain ⟨hu, hpersists⟩ := persists_run hrun hs
  obtain ⟨released, hreleases, -, hreleased⟩ := (stepped hu hop hv).releases
  obtain ⟨info', hinfo', -⟩ := hu.balanced.info hpos
  obtain ⟨info₀, hinfo₀, hsame⟩ := hpersists.infos b hb info' hinfo'
  obtain rfl := Option.some_inj.mp (hinfo.symm.trans hinfo₀)
  refine ⟨info', hinfo', hsame, ?_⟩
  intro write
  have hwrite : u.writeBack b = writeOf info' := by
    rw [← hu.writeOf_eq, hinfo', Option.bind_some]
  have hold : ⟨b, write⟩ ∉ u.releases := by
    intro hmem
    have hgone := (hu.gone _ hmem).2
    exact absurd (hinfo'.symm.trans hgone) (by simp)
  rw [hreleases, List.mem_append, or_iff_right hold, hreleased]
  constructor
  · rintro ⟨-, -, heq⟩
    exact heq.trans hwrite
  · intro heq
    exact ⟨hpos, hzero, heq.trans hwrite.symm⟩

theorem references_destroy (h : Inv s) (hy : s.handle i = some y) :
    ∃ t, step s (.destroy i) = some t ∧ ∀ b, t.references b + y.holds b = s.references b := by
  obtain ⟨u, released, hu, -, hkept, -, -, -⟩ := unref_spec h.balanced (h.reference_pos hy)
  refine ⟨u.setHandles (u.handles.set i none), ?_, ?_⟩
  · rw [step, hy]
    change (s.unref y).bind (fun t => some (t.setHandles (t.handles.set i none))) = _
    rw [hu, Option.bind_some]
  · intro b
    have hset := referencesIn_set (handle_eq_some.mp hy) none b
    rw [← hkept.handles] at hset
    rw [references, setHandles, hset, references, hkept.handles]
    rfl

end Later

section Call

/-- What a call gives, in the state after the step. -/
theorem call_spec (h : Inv s) (hcall : Allowed s (.acquire how device lba memory out)) :
    ∃ t r, step s (.acquire how device lba memory out) = some t ∧
      (∀ n, (s.acquire how device lba memory out).2 = .ok n → n = r) ∧
      (0 < r → (s.acquire how device lba memory out).2 = .ok r) ∧ t.next = s.next + r ∧
      BeforeFailure memory (contentOf s how device lba memory) 0 out.length r ∧
      ∀ i < r, ∃ place buffer, out[i]? = some place ∧ contentOf s how device lba memory i = some buffer ∧
        t.handle place = some (handleOf (s.next + i)) ∧
          t.infos (s.next + i) = some ⟨1, buffer, device, lba, decide (how = .readForUpdate)⟩ := by
  obtain ⟨t₀, r, result, hacquire, hcounts, hgiven, hend⟩ := acquire_spec h how device lba memory hcall.1 hcall.2
  refine ⟨_, r, rfl, ?_, ?_, ?_, hend, ?_⟩
  · intro n hn
    rw [hacquire] at hn
    obtain heq | ⟨-, error, heq⟩ := hcounts
    · exact Except.ok.inj (hn.symm.trans heq)
    · exact absurd (hn.symm.trans heq) (by simp)
  · intro hpos
    rw [hacquire]
    obtain heq | ⟨hzero, -⟩ := hcounts
    · exact heq
    · omega
  · rw [hacquire]
    exact hgiven.next
  · rw [hacquire]
    exact hgiven.new

theorem contentOf_read (hhow : how ≠ .allocateEmpty) :
    contentOf s how device lba memory = fun _ => (s.devices device).readBlock lba := by
  cases how with
  | read => rfl
  | readForUpdate => rfl
  | allocateEmpty => exact absurd rfl hhow

theorem blocks_of_readBlock {d : BlockDev} {buffer : Bytes} (h : d.readBlock lba = some buffer) :
    buffer = d.blocks lba := by
  rw [BlockDev.readBlock] at h
  split at h
  · exact absurd h (by simp)
  · exact (Option.some_inj.mp h).symm

theorem shows_handleOf (hinfo : s.infos b = some info) : s.shows (handleOf b) = some info.buffer := by
  rw [shows, handleOf, Option.bind_some, hinfo, Option.map_some]

theorem keepsApart_of_staysApart (h : Inv s) (hcall : Allowed s (.acquire how device lba memory out))
    (hapart : StaysApart s how device lba memory out) : KeepsApart s how device lba memory out := by
  intro t' n ht hn i hi
  obtain ⟨t, r, ht', hcount, -, hnext, hend, hnew⟩ := call_spec h hcall
  obtain rfl := Option.some_inj.mp (ht'.symm.trans ht)
  obtain rfl := hcount n hn
  obtain ⟨place, buffer, hplace, hcontent, hhandle, hinfo⟩ := hnew i hi
  obtain ⟨hlt, hobtains⟩ := (hend i).mp hi
  simp only [Nat.zero_add] at hobtains
  have hplaced := hapart i hlt hobtains
  refine ⟨handleOf (s.next + i), by rw [hplace, Option.bind_some, hhandle], ?_, ?_⟩
  · intro hhow
    rw [contentOf_read hhow] at hcontent
    rw [shows_handleOf hinfo, blocks_of_readBlock hcontent]
    cases how with
    | read => exact congrArg some hplaced.symm
    | readForUpdate => rw [show i = 0 from hplaced, Nat.add_zero]
    | allocateEmpty => exact absurd rfl hhow
  · intro hhow ops u op v hrun hop hv hpos hzero write
    have hinv := (stepped h hcall ht).inv
    obtain ⟨info', hinfo', hsame, hwrite⟩ := release_last hinv (by omega) hinfo hrun hop hv hpos hzero
    obtain ⟨hdevice, hlba, hwriteback⟩ := hsame
    refine (hwrite write).trans ?_
    rw [shows_handleOf hinfo']
    cases how with
    | read => exact absurd rfl hhow
    | allocateEmpty => exact hplaced.elim
    | readForUpdate =>
      rw [writeOf, hwriteback, if_pos (by rfl), hdevice, hlba, show i = 0 from hplaced, Nat.add_zero]
      constructor
      · intro heq
        exact ⟨info'.buffer, rfl, heq⟩
      · rintro ⟨buffer', hbuffer', heq⟩
        rw [Option.some_inj.mp hbuffer', heq]

/-- The handle is destroyed right after the call. -/
theorem write_of_keepsApart (h : Inv s) (hcall : Allowed s (.acquire how device lba memory out))
    (hkeeps : KeepsApart s how device lba memory out) (hhow : how ≠ .read) {k : Nat} (hk : k < out.length)
    (hobtains : ∀ j ≤ k, Obtains memory (contentOf s how device lba memory) j) :
    how = .readForUpdate ∧ k = 0 := by
  obtain ⟨t, r, ht, -, hok, hnext, hend, hnew⟩ := call_spec h hcall
  have hkr : k < r := (hend k).mpr ⟨hk, by simpa only [Nat.zero_add] using hobtains⟩
  obtain ⟨x, hx, -, hreleases⟩ := hkeeps t r ht (hok (Nat.zero_lt_of_lt hkr)) k hkr
  obtain ⟨place, buffer, hplace, -, hhandle, hinfo⟩ := hnew k hkr
  rw [hplace, Option.bind_some, hhandle] at hx
  obtain rfl := Option.some_inj.mp hx
  have hinv := (stepped h hcall ht).inv
  have hone : t.references (s.next + k) = 1 := by
    rw [← (hinv.balanced _).1, refcount, hinfo]
    rfl
  obtain ⟨v, hv, hrefs⟩ := references_destroy hinv hhandle
  have hzero : v.references (s.next + k) = 0 := by
    have hself := hrefs (s.next + k)
    rw [hone, show (handleOf (s.next + k)).holds (s.next + k) = 1 from holds_self rfl] at hself
    omega
  have hop : Allowed t (.destroy place) := by
    change (t.handle place).isSome
    rw [hhandle]
    rfl
  have hpos : 0 < t.references (s.next + k) := by omega
  obtain ⟨info', hinfo', -, hwrite⟩ := release_last hinv (by omega) hinfo .nil hop hv hpos hzero
  obtain rfl := Option.some_inj.mp (hinfo.symm.trans hinfo')
  obtain ⟨buffer', -, heq⟩ := (hreleases hhow [] t _ v .nil hop hv hpos hzero _).mp ((hwrite _).mpr rfl)
  rw [writeOf] at heq
  cases how with
  | read => exact absurd rfl hhow
  | allocateEmpty => exact absurd heq (by simp)
  | readForUpdate =>
    rw [if_pos (by rfl), Option.some_inj, Prod.mk.injEq, Prod.mk.injEq] at heq
    have hlba : lba = lba + k := heq.2.1
    exact ⟨rfl, by omega⟩

theorem staysApart_of_keepsApart (h : Inv s) (hcall : Allowed s (.acquire how device lba memory out))
    (hkeeps : KeepsApart s how device lba memory out) : StaysApart s how device lba memory out := by
  intro k hk hobtains
  cases how with
  | readForUpdate => exact (write_of_keepsApart h hcall hkeeps (by decide) hk hobtains).2
  | allocateEmpty => exact absurd (write_of_keepsApart h hcall hkeeps (by decide) hk hobtains).1 (by decide)
  | read =>
    obtain ⟨t, r, ht, -, hok, -, hend, hnew⟩ := call_spec h hcall
    have hkr : k < r := (hend k).mpr ⟨hk, by simpa only [Nat.zero_add] using hobtains⟩
    obtain ⟨x, hx, hshows, -⟩ := hkeeps t r ht (hok (Nat.zero_lt_of_lt hkr)) k hkr
    obtain ⟨place, buffer, hplace, hcontent, hhandle, hinfo⟩ := hnew k hkr
    rw [hplace, Option.bind_some, hhandle] at hx
    obtain rfl := Option.some_inj.mp hx
    have hblock := hshows (by decide)
    rw [shows_handleOf hinfo, Option.some_inj] at hblock
    rw [← hblock]
    exact blocks_of_readBlock hcontent

end Call

/-- After every run, a call keeps its blocks apart exactly if the condition holds. -/
theorem keepsApart_iff (h : Execution step Allowed { devices } ops s)
    (hcall : Allowed s (.acquire how device lba memory out)) :
    KeepsApart s how device lba memory out ↔ StaysApart s how device lba memory out := by
  have hinv := inv_run h (inv_initial devices)
  exact ⟨staysApart_of_keepsApart hinv hcall, keepsApart_of_staysApart hinv hcall⟩

/-- A device each of whose blocks is filled with its own number. -/
def numbered : BlockDev := ⟨fun b _ => b.toUInt8, fun _ => false, fun _ => false, 0⟩

def ample : Memory := ⟨fun _ => false, fun _ => false, fun _ _ => 0⟩

/-- A single block that is read for update. -/
theorem keepsApart_single :
    Execution step Allowed { devices := fun _ => numbered } [.construct]
        { handles := [some {}], devices := fun _ => numbered } ∧
      KeepsApart { handles := [some {}], devices := fun _ => numbered } .readForUpdate 0 5 ample [0] := by
  have h : Execution step Allowed { devices := fun _ => numbered } [.construct]
      { handles := [some {}], devices := fun _ => numbered } := .snoc .nil trivial rfl
  refine ⟨h, (keepsApart_iff h ⟨List.nodup_singleton 0, ?_⟩).mpr ?_⟩
  · intro i hi
    obtain rfl := List.mem_singleton.mp hi
    exact ⟨{}, rfl, rfl⟩
  · intro k hk hobtains
    exact Nat.lt_one_iff.mp hk

/-- Of two blocks that are read for update, the second is written over the first. -/
theorem keepsApart_second :
    ¬ ∀ (devices : Nat → BlockDev) ops s how device lba memory out, Execution step Allowed { devices } ops s →
      Allowed s (.acquire how device lba memory out) → KeepsApart s how device lba memory out := by
  intro h
  have hrun : Execution step Allowed { devices := fun _ => numbered } [.construct, .construct]
      { handles := [some {}, some {}], devices := fun _ => numbered } :=
    .snoc (.snoc .nil trivial rfl) trivial rfl
  have hcall : Allowed { handles := [some {}, some {}], devices := fun _ => numbered }
      (.acquire .readForUpdate 0 5 ample [0, 1]) := by
    refine ⟨by decide, ?_⟩
    intro i hi
    obtain rfl | hi := List.mem_cons.mp hi
    · exact ⟨{}, rfl, rfl⟩
    · obtain rfl := List.mem_singleton.mp hi
      exact ⟨{}, rfl, rfl⟩
  have hobtains : ∀ j ≤ 1, Obtains ample (contentOf { handles := [some {}, some {}], devices := fun _ => numbered }
      .readForUpdate 0 5 ample) j := by
    intro j hj
    refine ⟨rfl, ?_, rfl⟩
    change some _ ≠ none
    exact Option.some_ne_none _
  have hsecond := write_of_keepsApart (inv_run hrun (inv_initial _)) hcall (h _ _ _ _ _ _ _ _ hrun hcall) (by decide)
    (by decide) hobtains
  exact absurd hsecond.2 (by decide)

end XviOs.Storage
