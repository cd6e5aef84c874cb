import Mathlib
import XviOs.Library.Runs

namespace XviOs.GAlloc.PageBlock

open Library.Runs

variable {w : Nat} {Thread : Type}

/-- The memory that a block is made of. -/
structure Block (w : Nat) where
  beginning : BitVec w
  size : BitVec w
  fits : beginning.toNat + size.toNat ≤ 2 ^ w

/-- Where a thread is in `allocate`, with its local values. -/
inductive Pc (w : Nat)
  | idle
  | loadCursor (size : BitVec w)
  | loadLimit (size cursor : BitVec w)
  | test (size cursor limit : BitVec w)
  | exchange (size cursor limit : BitVec w)
  deriving DecidableEq

/-- A call is under way and asks for more than this. -/
def Pc.asksMore (remaining : BitVec w) : Pc w → Bool
  | .idle => false
  | .loadCursor size | .loadLimit size _ | .test size _ _ | .exchange size _ _ => remaining < size

/-- A call that has returned. The last field is not the program's: at some moment during the call fewer bytes remained
than it asked for. -/
structure Result (w : Nat) (Thread : Type) where
  thread : Thread
  size : BitVec w
  pointer : Option (BitVec w)
  short : Bool

/-- The two words of the block, and the threads. The last two fields are not the program's: whether fewer bytes than
asked for remained at some moment of the call that a thread is in, and the calls that have returned. -/
structure State (w : Nat) (Thread : Type) where
  cursor : BitVec w
  limit : BitVec w
  pc : Thread → Pc w
  short : Thread → Bool
  returned : List (Result w Thread)

/-- A thread calls `allocate`, or executes its next operation. A weak compare-exchange may fail although it finds what
it expects. -/
inductive Act (w : Nat)
  | call (size : BitVec w)
  | proceed (spurious : Bool)

namespace State

def init (b : Block w) : State w Thread := ⟨b.beginning, b.beginning + b.size, fun _ => .idle, fun _ => false, []⟩

variable (s : State w Thread)

/-- What there is behind the cursor. -/
def remaining : BitVec w := s.limit - s.cursor

/-- Fewer bytes remain than the thread asks for. -/
def shortNow (t : Thread) : Bool := (s.pc t).asksMore s.remaining

/-- What holds at this moment is kept for the calls that go on. -/
def note : State w Thread := { s with short := fun t => s.short t || s.shortNow t }

variable [DecidableEq Thread]

def goto (t : Thread) (pc : Pc w) : State w Thread := { s with pc := Function.update s.pc t pc }

def finish (t : Thread) (size : BitVec w) (pointer : Option (BitVec w)) : State w Thread :=
  { s.goto t .idle with
    short := Function.update s.short t false
    returned := ⟨t, size, pointer, s.short t⟩ :: s.returned }

def proceed (t : Thread) (spurious : Bool) : Option (State w Thread) :=
  match s.pc t with
  | .idle => none
  | .loadCursor size => some (s.goto t (.loadLimit size s.cursor))
  | .loadLimit size cursor => some (s.goto t (.test size cursor s.limit))
  | .test size cursor limit =>
    if limit - cursor > size then some (s.goto t (.exchange size cursor limit)) else some (s.finish t size none)
  | .exchange size cursor limit =>
    if s.cursor = cursor ∧ spurious = false then
      some { s.finish t size (some cursor) with cursor := cursor + size }
    -- the cursor that was found is taken for the next round
    else some (s.goto t (.test size s.cursor limit))

def step (s : State w Thread) : Thread × Act w → Option (State w Thread)
  | (t, .call size) => if s.pc t = .idle then some (s.goto t (.loadCursor size)).note else none
  | (t, .proceed spurious) => (s.proceed t spurious).map note

end State

/-- Some threads have called `allocate` on the block and have been executed in some order. -/
def Run [DecidableEq Thread] (b : Block w) (cs : List (Thread × Act w)) (s : State w Thread) : Prop :=
  Execution State.step (fun _ _ => True) (State.init b) cs s

/-- The addresses of the range that the call has got. -/
def Result.range (r : Result w Thread) : Set Nat :=
  match r.pointer with
  | none => ∅
  | some p => Set.Ico p.toNat (p.toNat + r.size.toNat)

/-- The ranges that have been given out lie in the block and apart from each other. -/
def Apart (b : Block w) (s : State w Thread) : Prop :=
  (∀ r ∈ s.returned, r.range ⊆ Set.Ico b.beginning.toNat (b.beginning.toNat + b.size.toNat)) ∧
    s.returned.Pairwise fun r r' => Disjoint r.range r'.range

/-- Where null was returned, fewer bytes remained at some moment than were asked for. -/
def NullRight (s : State w Thread) : Prop := ∀ r ∈ s.returned, r.pointer = none → r.short = true

/-- The step is the return of null, while exactly as many bytes remain as are asked for. -/
def ExactFit (s : State w Thread) : Thread × Act w → Prop
  | (t, .proceed _) => ∃ cursor limit, s.pc t = .test s.remaining cursor limit ∧ ¬ limit - cursor > s.remaining
  | _ => False

/-! ## What holds in every state -/

/-- What a thread knows: the limit, and a place that the cursor has been at. -/
def Knows (b : Block w) (s : State w Thread) : Pc w → Prop
  | .idle | .loadCursor _ => True
  | .loadLimit _ cursor => cursor.toNat ≤ s.cursor.toNat ∧ b.beginning.toNat ≤ cursor.toNat
  | .test _ cursor limit => limit = s.limit ∧ cursor.toNat ≤ s.cursor.toNat ∧ b.beginning.toNat ≤ cursor.toNat
  | .exchange size cursor limit => limit = s.limit ∧ size < limit - cursor ∧ cursor.toNat ≤ s.cursor.toNat ∧
      b.beginning.toNat ≤ cursor.toNat

structure Inv (b : Block w) (s : State w Thread) : Prop where
  limit : s.limit = b.beginning + b.size
  low : b.beginning.toNat ≤ s.cursor.toNat
  high : s.cursor.toNat ≤ b.beginning.toNat + b.size.toNat
  knows : ∀ t, Knows b s (s.pc t)
  short : ∀ t, s.short t = s.shortNow t
  granted : ∀ r ∈ s.returned, r.range ⊆ Set.Ico b.beginning.toNat s.cursor.toNat
  apart : s.returned.Pairwise fun r r' => Disjoint r.range r'.range

variable {b : Block w} {s s' : State w Thread} {t : Thread} {size cursor : BitVec w}

/-- The space behind a place in the block, as a number. -/
theorem Block.toNat_sub (b : Block w) (hlow : b.beginning.toNat ≤ cursor.toNat)
    (hhigh : cursor.toNat ≤ b.beginning.toNat + b.size.toNat) :
    (b.beginning + b.size - cursor).toNat = b.beginning.toNat + b.size.toNat - cursor.toNat := by
  have hfits := b.fits
  have hsize := b.size.isLt
  have hcursor := cursor.isLt
  rw [BitVec.toNat_sub, BitVec.toNat_add]
  rcases Nat.lt_or_eq_of_le hfits with hlt | heq
  · rw [Nat.mod_eq_of_lt hlt, show 2 ^ w - cursor.toNat + (b.beginning.toNat + b.size.toNat) =
      (b.beginning.toNat + b.size.toNat - cursor.toNat) + 2 ^ w by omega, Nat.add_mod_right,
      Nat.mod_eq_of_lt (by omega)]
  · rw [heq, Nat.mod_self, Nat.add_zero, Nat.mod_eq_of_lt (by omega)]

theorem Inv.toNat_remaining (h : Inv b s) :
    s.remaining.toNat = b.beginning.toNat + b.size.toNat - s.cursor.toNat := by
  rw [State.remaining, h.limit]
  exact b.toNat_sub h.low h.high

theorem inv_init (b : Block w) : Inv b (State.init b : State w Thread) where
  limit := rfl
  low := Nat.le_refl _
  high := Nat.le_add_right _ _
  knows _ := trivial
  short _ := rfl
  granted := by simp [State.init]
  apart := List.Pairwise.nil

/-- The invariant, before it is noted how much remains. -/
theorem Inv.note {u : State w Thread} (limit : u.limit = b.beginning + b.size)
    (low : b.beginning.toNat ≤ u.cursor.toNat) (high : u.cursor.toNat ≤ b.beginning.toNat + b.size.toNat)
    (knows : ∀ t, Knows b u (u.pc t)) (short : ∀ t, u.short t = true → u.shortNow t = true)
    (granted : ∀ r ∈ u.returned, r.range ⊆ Set.Ico b.beginning.toNat u.cursor.toNat)
    (apart : u.returned.Pairwise fun r r' => Disjoint r.range r'.range) : Inv b u.note where
  limit := limit
  low := low
  high := high
  knows := knows
  short t := by
    change (u.short t || u.shortNow t) = u.shortNow t
    cases h : u.short t with
    | false => rfl
    | true => rw [short t h, Bool.or_true]
  granted := granted
  apart := apart

theorem Knows.mono {u : State w Thread} {pc : Pc w} (h : Knows b s pc) (hlimit : u.limit = s.limit)
    (hcursor : s.cursor.toNat ≤ u.cursor.toNat) : Knows b u pc := by
  cases pc with
  | idle | loadCursor => trivial
  | loadLimit size cursor => exact ⟨h.1.trans hcursor, h.2⟩
  | test size cursor limit => exact ⟨h.1.trans hlimit.symm, h.2.1.trans hcursor, h.2.2⟩
  | exchange size cursor limit => exact ⟨h.1.trans hlimit.symm, h.2.1, h.2.2.1.trans hcursor, h.2.2.2⟩

/-- Less remains for those that go on when the cursor moves. -/
theorem shortNow_mono {u : State w Thread} (hremaining : u.remaining ≤ s.remaining) (hpc : u.pc t = s.pc t)
    (h : s.shortNow t = true) : u.shortNow t = true := by
  rw [State.shortNow] at h ⊢
  rw [hpc]
  generalize s.pc t = pc at h
  cases pc with
  | idle => exact h
  | loadCursor | loadLimit | test | exchange =>
      have hlt := BitVec.lt_def.1 (of_decide_eq_true h)
      exact decide_eq_true (BitVec.lt_def.2 (Nat.lt_of_le_of_lt (BitVec.le_def.1 hremaining) hlt))

variable [DecidableEq Thread]

theorem Inv.goto (h : Inv b s) {pc : Pc w} (hknows : Knows b s pc)
    (hshort : s.shortNow t = true → (s.goto t pc).shortNow t = true) : Inv b (s.goto t pc).note := by
  refine Inv.note h.limit h.low h.high (fun u => ?_) (fun u hu => ?_) h.granted h.apart
  · rcases eq_or_ne u t with rfl | hne
    · change Knows b s (Function.update s.pc u pc u)
      rwa [Function.update_self]
    · change Knows b s (Function.update s.pc t pc u)
      rw [Function.update_of_ne hne]
      exact h.knows u
  · have hnow : s.shortNow u = true := (h.short u).symm.trans hu
    rcases eq_or_ne u t with rfl | hne
    · exact hshort hnow
    · rw [← hnow, State.shortNow, State.shortNow, State.goto]
      dsimp only
      rw [Function.update_of_ne hne]
      rfl

/-- Nothing else changes when null is returned. -/
theorem Inv.finish_none (h : Inv b s) : Inv b (s.finish t size none).note := by
  refine Inv.note h.limit h.low h.high (fun u => ?_) (fun u hu => ?_) ?_ ?_
  · change Knows b s (Function.update s.pc t .idle u)
    rcases eq_or_ne u t with rfl | hne
    · rw [Function.update_self]
      trivial
    · rw [Function.update_of_ne hne]
      exact h.knows u
  · change Function.update s.short t false u = true at hu
    rcases eq_or_ne u t with rfl | hne
    · rw [Function.update_self] at hu
      cases hu
    · rw [Function.update_of_ne hne, h.short] at hu
      rw [← hu, State.shortNow, State.shortNow, State.finish, State.goto]
      dsimp only
      rw [Function.update_of_ne hne]
      rfl
  · intro r hr
    obtain rfl | hr := List.mem_cons.1 hr
    · exact Set.empty_subset _
    · exact h.granted r hr
  · exact List.pairwise_cons.2 ⟨fun r _ => Set.empty_disjoint _, h.apart⟩

/-- The range between the old and the new cursor is given out. -/
theorem Inv.finish_some (h : Inv b s) {limit : BitVec w} (hpc : s.pc t = .exchange size s.cursor limit) :
    Inv b (State.note { s.finish t size (some s.cursor) with cursor := s.cursor + size }) := by
  obtain ⟨hlimit, hsize, -, -⟩ : Knows b s (.exchange size s.cursor limit) := hpc ▸ h.knows t
  have hrem := h.toNat_remaining
  have hlt : size.toNat < s.remaining.toNat := by
    rw [hlimit] at hsize
    exact hsize
  have hlow := h.low
  have hhigh := h.high
  have hfits := b.fits
  have hadd : (s.cursor + size).toNat = s.cursor.toNat + size.toNat := by
    rw [BitVec.toNat_add, Nat.mod_eq_of_lt (by omega)]
  have hle : (s.limit - (s.cursor + size)) ≤ s.remaining := by
    rw [BitVec.le_def, hrem, h.limit, b.toNat_sub (by omega) (by omega), hadd]
    omega
  refine Inv.note h.limit ?_ ?_ (fun u => ?_) (fun u hu => ?_) ?_ ?_
  · exact hlow.trans (by rw [hadd]; exact Nat.le_add_right _ _)
  · change (s.cursor + size).toNat ≤ _
    omega
  · change Knows b _ (Function.update s.pc t .idle u)
    rcases eq_or_ne u t with rfl | hne
    · rw [Function.update_self]
      trivial
    · rw [Function.update_of_ne hne]
      exact (h.knows u).mono rfl (by rw [hadd]; exact Nat.le_add_right _ _)
  · change Function.update s.short t false u = true at hu
    rcases eq_or_ne u t with rfl | hne
    · rw [Function.update_self] at hu
      cases hu
    · rw [Function.update_of_ne hne, h.short] at hu
      exact shortNow_mono hle (Function.update_of_ne hne _ _) hu
  · intro r hr
    change _ ⊆ Set.Ico _ (s.cursor + size).toNat
    rw [hadd]
    obtain rfl | hr := List.mem_cons.1 hr
    · exact Set.Ico_subset_Ico_left hlow
    · exact (h.granted r hr).trans (Set.Ico_subset_Ico_right (Nat.le_add_right _ _))
  · refine List.pairwise_cons.2 ⟨fun r hr => ?_, h.apart⟩
    rw [Set.disjoint_left]
    intro x hx hxr
    exact absurd (h.granted r hr hxr).2 (Nat.not_lt.2 hx.1)

theorem goto_pc (pc : Pc w) : (s.goto t pc).pc t = pc := by simp [State.goto]

/-- The call that goes on asks for the same. -/
theorem Inv.advance (h : Inv b s) {pc pc' : Pc w} (hpc : s.pc t = pc) (hknows : Knows b s pc')
    (hasks : pc'.asksMore s.remaining = pc.asksMore s.remaining) : Inv b (s.goto t pc').note := by
  refine h.goto hknows fun hshort => ?_
  rw [State.shortNow, hpc, ← hasks] at hshort
  rw [State.shortNow, goto_pc]
  exact hshort

/-- What one operation keeps, one case for each place in `allocate`. -/
theorem Inv.proceed (h : Inv b s) {spurious : Bool} (hs : s.proceed t spurious = some s') : Inv b s'.note := by
  have hknows := h.knows t
  cases hpc : s.pc t with
  | idle => simp [State.proceed, hpc] at hs
  | loadCursor size =>
      simp only [State.proceed, hpc, Option.some.injEq] at hs
      subst hs
      exact h.advance hpc ⟨le_rfl, h.low⟩ rfl
  | loadLimit size cursor =>
      rw [hpc] at hknows
      simp only [State.proceed, hpc, Option.some.injEq] at hs
      subst hs
      exact h.advance hpc ⟨rfl, hknows⟩ rfl
  | test size cursor limit =>
      rw [hpc] at hknows
      simp only [State.proceed, hpc] at hs
      split at hs
      · obtain rfl := Option.some.inj hs
        exact h.advance hpc ⟨hknows.1, ‹_›, hknows.2⟩ rfl
      · obtain rfl := Option.some.inj hs
        exact h.finish_none
  | exchange size cursor limit =>
      rw [hpc] at hknows
      simp only [State.proceed, hpc] at hs
      split at hs
      · obtain rfl := Option.some.inj hs
        obtain ⟨rfl, -⟩ := ‹s.cursor = cursor ∧ spurious = false›
        exact h.finish_some hpc
      · obtain rfl := Option.some.inj hs
        exact h.advance hpc ⟨hknows.1, le_rfl, h.low⟩ rfl

theorem Inv.step (h : Inv b s) {c : Thread × Act w} (hs : s.step c = some s') : Inv b s' := by
  obtain ⟨t, size | spurious⟩ := c
  · rw [State.step] at hs
    split at hs
    · obtain rfl := Option.some.inj hs
      refine h.goto trivial fun hshort => ?_
      rw [State.shortNow, ‹s.pc t = .idle›] at hshort
      cases hshort
    · cases hs
  · obtain ⟨u, hu, rfl⟩ := Option.map_eq_some_iff.1 hs
    exact h.proceed hu

theorem Run.inv {cs : List (Thread × Act w)} (h : Run b cs s) : Inv b s :=
  h.invariant (inv_init b) fun _ _ _ ht _ hs => ht.step hs

omit [DecidableEq Thread] in
/-- At the return of null, no more remains than is asked for. -/
theorem Inv.remaining_le (h : Inv b s) {limit : BitVec w} (hpc : s.pc t = .test size cursor limit)
    (hnot : ¬ limit - cursor > size) : s.remaining.toNat ≤ size.toNat := by
  obtain ⟨rfl, hle, hlow⟩ : Knows b s (.test size cursor limit) := hpc ▸ h.knows t
  have hsub : (s.limit - cursor).toNat = b.beginning.toNat + b.size.toNat - cursor.toNat := by
    rw [h.limit]
    exact b.toNat_sub hlow (hle.trans h.high)
  have hge : (s.limit - cursor).toNat ≤ size.toNat := Nat.not_lt.1 fun hlt => hnot (BitVec.lt_def.2 hlt)
  rw [h.toNat_remaining]
  omega

/-- Null is returned rightly at this step, unless it is an exact fit. -/
theorem nullRight_step (h : Inv b s) {c : Thread × Act w} (hs : s.step c = some s') :
    NullRight s' ↔ NullRight s ∧ ¬ ExactFit s c := by
  obtain ⟨t, size | spurious⟩ := c
  · rw [State.step] at hs
    split at hs
    · obtain rfl := Option.some.inj hs
      exact (and_iff_left not_false).symm
    · cases hs
  · obtain ⟨u, hu, rfl⟩ := Option.map_eq_some_iff.1 hs
    by_cases hnull : ∃ size cursor limit, s.pc t = .test size cursor limit ∧ ¬ limit - cursor > size
    · obtain ⟨size, cursor, limit, hpc, hnot⟩ := hnull
      rw [State.proceed, hpc] at hu
      simp only [if_neg hnot, Option.some.injEq] at hu
      subst hu
      have hle := h.remaining_le hpc hnot
      have hshort : s.short t = true ↔ s.remaining.toNat < size.toNat := by
        rw [h.short, State.shortNow, hpc]
        exact decide_eq_true_iff.trans BitVec.lt_def
      have hfit : ExactFit s (t, .proceed spurious) ↔ size = s.remaining := by
        constructor
        · rintro ⟨cursor', limit', hpc', -⟩
          rw [hpc] at hpc'
          exact (Pc.test.inj hpc').1
        · intro heq
          exact ⟨cursor, limit, heq ▸ hpc, heq ▸ hnot⟩
      have hcons : NullRight (s.finish t size none).note ↔ s.short t = true ∧ NullRight s :=
        List.forall_mem_cons.trans (and_congr_left fun _ => ⟨fun hr => hr rfl, fun hr _ => hr⟩)
      rw [hcons, hshort, hfit, ← BitVec.toNat_inj, and_comm]
      refine and_congr_right fun _ => ?_
      omega
    · have hfit : ¬ ExactFit s (t, .proceed spurious) := by
        rintro ⟨cursor, limit, hpc, hnot⟩
        exact hnull ⟨_, cursor, limit, hpc, hnot⟩
      rw [and_iff_left hfit]
      cases hpc : s.pc t with
      | idle => simp [State.proceed, hpc] at hu
      | loadCursor size | loadLimit size cursor =>
          simp only [State.proceed, hpc, Option.some.injEq] at hu
          subst hu
          exact Iff.rfl
      | test size cursor limit =>
          have hgt : limit - cursor > size := by
            by_contra hnot
            exact hnull ⟨size, cursor, limit, hpc, hnot⟩
          simp only [State.proceed, hpc, if_pos hgt, Option.some.injEq] at hu
          subst hu
          exact Iff.rfl
      | exchange size cursor limit =>
          simp only [State.proceed, hpc] at hu
          split at hu
          · obtain rfl := Option.some.inj hu
            exact List.forall_mem_cons.trans (and_iff_right fun hr => by cases hr)
          · obtain rfl := Option.some.inj hu
            exact Iff.rfl

/-- The ranges are always right, and null is returned rightly in the runs in which no call that finds exactly what it
asks for returns null. -/
theorem allocate_iff (b : Block w) {cs : List (Thread × Act w)} (h : Run b cs s) :
    Apart b s ∧ (NullRight s ↔ ∀ ds c u, ds ++ [c] <+: cs → Run b ds u → ¬ ExactFit u c) := by
  refine ⟨⟨fun r hr => (h.inv.granted r hr).trans (Set.Ico_subset_Ico_right h.inv.high), h.inv.apart⟩, ?_⟩
  induction h with
  | nil =>
      refine iff_of_true (by simp [NullRight, State.init]) fun ds c u hpre _ => ?_
      simp at hpre
  | @snoc cs t u c hr _ hs ih =>
      rw [nullRight_step (Run.inv hr) hs, ih]
      constructor
      · rintro ⟨hall, hlast⟩ ds d v hpre hv
        rcases List.prefix_concat_iff.1 hpre with heq | hpre
        · obtain ⟨rfl, hd⟩ := List.append_inj' heq rfl
          obtain rfl := List.singleton_inj.1 hd
          rwa [Execution.unique hv hr]
        · exact hall ds d v hpre hv
      · intro hall
        exact ⟨fun ds d v hpre hv => hall ds d v (hpre.trans (List.prefix_append _ _)) hv,
          hall cs c t List.prefix_rfl hr⟩

/-- One thread asks for the whole of a block. -/
def wholeBlock : Block 64 := ⟨0x10000, 0x1000, by decide⟩

def wholeCall : List (Unit × Act 64) :=
  [((), .call 0x1000), ((), .proceed false), ((), .proceed false), ((), .proceed false)]

theorem wholeCall_null : ∃ s : State 64 Unit, Run wholeBlock wholeCall s ∧ ¬ NullRight s := by
  refine ⟨_, .snoc (.snoc (.snoc (.snoc .nil trivial rfl) trivial rfl) trivial rfl) trivial rfl, fun h => ?_⟩
  exact absurd (h _ List.mem_cons_self rfl) (by decide)

theorem halfCall_apart : ∃ s : State 64 Unit, s.returned.map Result.pointer = [some 0x10000] ∧ Apart wholeBlock s := by
  have hrun : Run wholeBlock
      [((), Act.call 0x800), ((), .proceed false), ((), .proceed false), ((), .proceed false), ((), .proceed false)] _ :=
    .snoc (.snoc (.snoc (.snoc (.snoc .nil trivial rfl) trivial rfl) trivial rfl) trivial rfl) trivial rfl
  exact ⟨_, rfl, (allocate_iff wholeBlock hrun).1⟩

end XviOs.GAlloc.PageBlock
