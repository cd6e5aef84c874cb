import Mathlib.Tactic
import XviOs.Library.Runs

namespace XviOs.Concurrency.Seqlock

open Library.Runs

variable {Thread Loc Val : Type} [DecidableEq Thread] [DecidableEq Loc]

/-- Where a thread is: outside, in a read section with its cookie and what it has read, in front of the
compare-exchange of `SeqlockWriteAcquire`, in the loop that waits for another writer, or in its write section. -/
inductive Pc (Loc Val : Type)
  | idle
  | reading (cookie : BitVec 64) (seen : List (Loc × Val))
  | exchanging (current desired : BitVec 64)
  | spinning
  | writing

/-- The last two fields are not the program's: the data that the last write section left, and the number of times that
the lock has been incremented. -/
structure State (Thread Loc Val : Type) where
  lock : BitVec 64
  data : Loc → Val
  pc : Thread → Pc Loc Val
  version : Loc → Val
  count : Nat

inductive Act (Loc Val : Type)
  | readAcquire
  | read (loc : Loc)
  | readValid
  | writeAcquire
  | compareExchange (spurious : Bool)
  | spin
  | write (loc : Loc) (val : Val)
  | writeRelease

/-- A lock is written while its value is odd. -/
def isOdd (value : BitVec 64) : Bool := value &&& 1 ≠ 0

def readValid (lock cookie : BitVec 64) : Bool := !(isOdd cookie || lock ≠ cookie)

/-- What follows a value of the lock that was loaded: it is expected by the next compare-exchange unless it is odd. -/
def afterLoad (current : BitVec 64) : Pc Loc Val :=
  if isOdd current then .spinning else .exchanging current (current + 1)

def State.goto (s : State Thread Loc Val) (t : Thread) (pc : Pc Loc Val) : State Thread Loc Val :=
  { s with pc := Function.update s.pc t pc }

/-- One atomic step of a thread. -/
def step (s : State Thread Loc Val) : Thread × Act Loc Val → Option (State Thread Loc Val)
  | (t, act) =>
    match act, s.pc t with
    | .readAcquire, .idle => some (s.goto t (.reading s.lock []))
    | .read loc, .reading cookie seen => some (s.goto t (.reading cookie ((loc, s.data loc) :: seen)))
    | .readValid, .reading _ _ => some (s.goto t .idle)
    | .writeAcquire, .idle => some (s.goto t (.exchanging 0 1))
    | .compareExchange spurious, .exchanging current desired =>
      if s.lock = current ∧ spurious = false then
        some { s.goto t .writing with lock := desired, count := s.count + 1 }
      else some (s.goto t (afterLoad s.lock))
    | .spin, .spinning => some (s.goto t (afterLoad s.lock))
    | .write loc val, .writing => some { s with data := Function.update s.data loc val }
    | .writeRelease, .writing =>
      some { s.goto t .idle with lock := s.lock + 1, version := s.data, count := s.count + 1 }
    | _, _ => none

def initial (data : Loc → Val) : State Thread Loc Val where
  lock := 0
  data := data
  pc _ := .idle
  version := data
  count := 0

/-- Any number of threads, in any order. -/
abbrev Run (s : State Thread Loc Val) (cs : List (Thread × Act Loc Val)) (s' : State Thread Loc Val) : Prop :=
  Execution step (fun _ _ => True) s cs s'

variable {s s' : State Thread Loc Val} {t : Thread}

/-- What a step of a thread can do to the lock, the data and its place. -/
inductive Effect (s : State Thread Loc Val) (t : Thread) : State Thread Loc Val → Prop
  | moves (pc : Pc Loc Val) (hout : s.pc t ≠ .writing) (hnew : pc ≠ .writing)
      (hexpected : ∀ current desired, pc = .exchanging current desired →
        isOdd current = false ∧ desired = current + 1) : Effect s t (s.goto t pc)
  | locks (current desired : BitVec 64) (hpc : s.pc t = .exchanging current desired) (hlock : s.lock = current) :
      Effect s t { s.goto t .writing with lock := desired, count := s.count + 1 }
  | writes (loc : Loc) (val : Val) (hpc : s.pc t = .writing) :
      Effect s t { s with data := Function.update s.data loc val }
  | releases (hpc : s.pc t = .writing) :
      Effect s t { s.goto t .idle with lock := s.lock + 1, version := s.data, count := s.count + 1 }

theorem effect_afterLoad (hout : s.pc t ≠ .writing) (current : BitVec 64) :
    Effect s t (s.goto t (afterLoad current)) := by
  rw [afterLoad]
  split
  · exact .moves _ hout (by simp) (by simp)
  · rename_i hodd
    refine .moves _ hout (by simp) ?_
    rintro c d heq
    obtain ⟨rfl, rfl⟩ := Pc.exchanging.inj heq
    exact ⟨by simpa using hodd, rfl⟩

theorem step_effect {act : Act Loc Val} (h : step s (t, act) = some s') : Effect s t s' := by
  simp only [step] at h
  split at h
  · obtain rfl := Option.some.inj h
    exact .moves _ (by simp [*]) (by simp) (by simp)
  · obtain rfl := Option.some.inj h
    exact .moves _ (by simp [*]) (by simp) (by simp)
  · obtain rfl := Option.some.inj h
    exact .moves _ (by simp [*]) (by simp) (by simp)
  · obtain rfl := Option.some.inj h
    refine .moves _ (by simp [*]) (by simp) ?_
    rintro c d heq
    obtain ⟨rfl, rfl⟩ := Pc.exchanging.inj heq
    exact ⟨by decide, by decide⟩
  · rename_i spurious current desired hpc
    split at h
    · rename_i hlock
      obtain rfl := Option.some.inj h
      exact .locks current desired hpc hlock.1
    · obtain rfl := Option.some.inj h
      exact effect_afterLoad (by simp [hpc]) s.lock
  · obtain rfl := Option.some.inj h
    exact effect_afterLoad (by simp [*]) s.lock
  · obtain rfl := Option.some.inj h
    exact .writes _ _ ‹_›
  · obtain rfl := Option.some.inj h
    exact .releases ‹_›
  · cases h

/-- The lock counts the beginnings and the ends of the write sections. -/
structure Inv (s : State Thread Loc Val) : Prop where
  counted : s.lock = BitVec.ofNat 64 s.count
  odd : s.count % 2 = 1 ↔ ∃ t, s.pc t = .writing
  unique : ∀ t u, s.pc t = .writing → s.pc u = .writing → t = u
  expected : ∀ t current desired, s.pc t = .exchanging current desired →
    isOdd current = false ∧ desired = current + 1
  settled : (∀ t, s.pc t ≠ .writing) → s.data = s.version

theorem isOdd_ofNat (n : Nat) : isOdd (BitVec.ofNat 64 n) = decide (n % 2 = 1) := by
  have hbit : (BitVec.ofNat 64 n &&& 1).toNat = n % 2 := by
    rw [BitVec.toNat_and, BitVec.toNat_ofNat]
    change _ &&& 1 = _
    rw [Nat.and_one_is_mod]
    omega
  rw [isOdd, decide_eq_decide, ne_eq, ← BitVec.toNat_inj, hbit]
  change ¬ n % 2 = 0 ↔ n % 2 = 1
  omega

omit [DecidableEq Thread] [DecidableEq Loc] in
theorem inv_initial (data : Loc → Val) : Inv (initial data : State Thread Loc Val) where
  counted := rfl
  odd := by simp [initial]
  unique := by simp [initial]
  expected := by simp [initial]
  settled := by simp [initial]

omit [DecidableEq Loc] in
theorem goto_pc_self (s : State Thread Loc Val) (t : Thread) (pc : Pc Loc Val) : (s.goto t pc).pc t = pc := by
  exact Function.update_self ..

omit [DecidableEq Loc] in
theorem goto_pc_ne (s : State Thread Loc Val) {t u : Thread} (h : u ≠ t) (pc : Pc Loc Val) :
    (s.goto t pc).pc u = s.pc u := by
  exact Function.update_of_ne h ..

omit [DecidableEq Loc] in
/-- A thread that goes from one place outside a write section to another. -/
theorem writing_goto {pc : Pc Loc Val} (hout : s.pc t ≠ .writing) (hnew : pc ≠ .writing) (u : Thread) :
    (s.goto t pc).pc u = .writing ↔ s.pc u = .writing := by
  by_cases hu : u = t
  · rw [hu, goto_pc_self]
    exact iff_of_false hnew hout
  · rw [goto_pc_ne s hu]

omit [DecidableEq Loc] in
theorem inv_moves (h : Inv s) {pc : Pc Loc Val} (hout : s.pc t ≠ .writing) (hnew : pc ≠ .writing)
    (hexpected : ∀ current desired, pc = .exchanging current desired → isOdd current = false ∧ desired = current + 1) :
    Inv (s.goto t pc) where
  counted := h.counted
  odd := by
    simp only [writing_goto hout hnew]
    exact h.odd
  unique := by
    simp only [writing_goto hout hnew]
    exact h.unique
  expected := by
    intro u current desired hu
    by_cases hut : u = t
    · rw [hut, goto_pc_self] at hu
      exact hexpected current desired hu
    · rw [goto_pc_ne s hut] at hu
      exact h.expected u current desired hu
  settled := by
    intro hnone
    simp only [ne_eq, writing_goto hout hnew] at hnone
    exact h.settled hnone

omit [DecidableEq Thread] [DecidableEq Loc] in
/-- The value that the compare-exchange expects is even, so that no thread is writing. -/
theorem Inv.none_writing (h : Inv s) (hodd : isOdd s.lock = false) (t : Thread) : s.pc t ≠ .writing := by
  intro ht
  rw [h.counted, isOdd_ofNat] at hodd
  exact of_decide_eq_false hodd (h.odd.mpr ⟨t, ht⟩)

omit [DecidableEq Loc] in
theorem inv_locks (h : Inv s) {current desired : BitVec 64} (hpc : s.pc t = .exchanging current desired)
    (hlock : s.lock = current) :
    Inv { s.goto t .writing with lock := desired, count := s.count + 1 } := by
  obtain ⟨hodd, rfl⟩ := h.expected t current desired hpc
  have hnone := h.none_writing (by rw [hlock]; exact hodd)
  have honly : ∀ u, (s.goto t .writing).pc u = .writing → u = t := by
    intro u hu
    by_contra hne
    rw [goto_pc_ne s hne] at hu
    exact hnone u hu
  constructor
  · change current + 1 = BitVec.ofNat 64 (s.count + 1)
    rw [← hlock, h.counted, BitVec.ofNat_add]
    rfl
  · have heven : ¬ s.count % 2 = 1 := fun hc => by
      obtain ⟨u, hu⟩ := h.odd.mp hc
      exact hnone u hu
    change (s.count + 1) % 2 = 1 ↔ _
    exact iff_of_true (by omega) ⟨t, goto_pc_self s t _⟩
  · intro u v hu hv
    rw [honly u hu, honly v hv]
  · intro u c d hu
    by_cases hut : u = t
    · rw [hut] at hu
      cases (goto_pc_self s t .writing).symm.trans hu
    · exact h.expected u c d ((goto_pc_ne s hut _).symm.trans hu)
  · intro hall
    exact absurd (goto_pc_self s t .writing) (hall t)

omit [DecidableEq Thread] in
theorem inv_writes (h : Inv s) (loc : Loc) (val : Val) (hpc : s.pc t = .writing) :
    Inv { s with data := Function.update s.data loc val } where
  counted := h.counted
  odd := h.odd
  unique := h.unique
  expected := h.expected
  settled := fun hnone => absurd hpc (hnone t)

omit [DecidableEq Loc] in
theorem inv_releases (h : Inv s) (hpc : s.pc t = .writing) :
    Inv { s.goto t .idle with lock := s.lock + 1, version := s.data, count := s.count + 1 } := by
  have hnone : ∀ u, (s.goto t .idle).pc u ≠ .writing := by
    intro u hu
    by_cases hut : u = t
    · rw [hut, goto_pc_self] at hu
      cases hu
    · rw [goto_pc_ne s hut] at hu
      exact hut (h.unique u t hu hpc)
  constructor
  · change s.lock + 1 = BitVec.ofNat 64 (s.count + 1)
    rw [h.counted, BitVec.ofNat_add]
    rfl
  · have hodd := h.odd.mpr ⟨t, hpc⟩
    change (s.count + 1) % 2 = 1 ↔ _
    refine iff_of_false (by omega) ?_
    rintro ⟨u, hu⟩
    exact hnone u hu
  · intro u v hu _
    exact absurd hu (hnone u)
  · intro u c d hu
    by_cases hut : u = t
    · rw [hut] at hu
      cases (goto_pc_self s t .idle).symm.trans hu
    · exact h.expected u c d ((goto_pc_ne s hut _).symm.trans hu)
  · intro _
    rfl

theorem inv_step (h : Inv s) {act : Act Loc Val} (hstep : step s (t, act) = some s') : Inv s' := by
  cases step_effect hstep with
  | moves pc hout hnew hexpected => exact inv_moves h hout hnew hexpected
  | locks current desired hpc hlock => exact inv_locks h hpc hlock
  | writes loc val hpc => exact inv_writes h loc val hpc
  | releases hpc => exact inv_releases h hpc

theorem inv_run {cs : List (Thread × Act Loc Val)} (h : Run s cs s') (hs : Inv s) : Inv s' := by
  refine h.invariant hs ?_
  rintro u v ⟨t, act⟩ hu _ hstep
  exact inv_step hu hstep

theorem count_le_step {act : Act Loc Val} (hstep : step s (t, act) = some s') : s.count ≤ s'.count := by
  cases step_effect hstep with
  | moves | writes => exact le_rfl
  | locks | releases => exact Nat.le_succ _

theorem count_le_run {allowed : State Thread Loc Val → Thread × Act Loc Val → Prop}
    {cs : List (Thread × Act Loc Val)} (h : Execution step allowed s cs s') : s.count ≤ s'.count := by
  refine h.invariant (P := fun u => s.count ≤ u.count) le_rfl ?_
  rintro u v ⟨t, act⟩ hu _ hstep
  exact hu.trans (count_le_step hstep)

theorem pc_of_ne {u : Thread} (hu : u ≠ t) {act : Act Loc Val} (hstep : step s (t, act) = some s') :
    s'.pc u = s.pc u := by
  cases step_effect hstep with
  | moves | locks | releases => exact goto_pc_ne s hu _
  | writes => rfl

/-- A thread does nothing but read. -/
abbrev OnlyReads (t : Thread) (_ : State Thread Loc Val) (c : Thread × Act Loc Val) : Prop :=
  c.1 = t → ∃ loc, c.2 = .read loc

abbrev RunReading (t : Thread) (s : State Thread Loc Val) (cs : List (Thread × Act Loc Val))
    (s' : State Thread Loc Val) : Prop :=
  Execution step (OnlyReads t) s cs s'

/-- A reader keeps its cookie, and adds at most one value. -/
theorem reading_step {w : Thread} {act : Act Loc Val} (hread : OnlyReads t s (w, act))
    (hstep : step s (w, act) = some s') {cookie : BitVec 64} {seen : List (Loc × Val)}
    (hpc : s'.pc t = .reading cookie seen) :
    ∃ rest, s.pc t = .reading cookie rest ∧ (seen = rest ∨ ∃ loc, seen = (loc, s.data loc) :: rest) := by
  by_cases hw : t = w
  · obtain rfl := hw
    obtain ⟨loc, rfl⟩ := hread rfl
    cases hold : s.pc t with
    | reading old rest =>
      simp only [step, hold] at hstep
      obtain rfl := Option.some.inj hstep
      rw [goto_pc_self] at hpc
      obtain ⟨rfl, rfl⟩ := Pc.reading.inj hpc
      exact ⟨rest, rfl, Or.inr ⟨loc, rfl⟩⟩
    | idle | exchanging | spinning | writing => simp [step, hold] at hstep
  · rw [pc_of_ne hw hstep] at hpc
    exact ⟨seen, hpc, Or.inl rfl⟩

theorem cookie_run {cs : List (Thread × Act Loc Val)} (h : RunReading t s cs s') {cookie : BitVec 64}
    (hs : ∀ c seen, s.pc t = .reading c seen → c = cookie) :
    ∀ c seen, s'.pc t = .reading c seen → c = cookie := by
  refine h.invariant (P := fun u => ∀ c seen, u.pc t = .reading c seen → c = cookie) hs ?_
  rintro u v ⟨w, act⟩ hu hread hstep c seen hpc
  obtain ⟨rest, hrest, -⟩ := reading_step hread hstep hpc
  exact hu c rest hrest

/-- Unless the lock has been incremented since `s`, the version is the one of `s`, and the reader `t` has read nothing
but values of it. -/
def Consistent (s : State Thread Loc Val) (t : Thread) (s' : State Thread Loc Val) : Prop :=
  s'.count = s.count → s'.version = s.version ∧
    ∀ cookie seen, s'.pc t = .reading cookie seen → ∀ p ∈ seen, p.2 = s.version p.1

theorem consistent_step (hs : s.count % 2 = 0) {u v : State Thread Loc Val} (hle : s.count ≤ u.count)
    (hinv : Inv u) (h : Consistent s t u) {w : Thread} {act : Act Loc Val} (hread : OnlyReads t u (w, act))
    (hstep : step u (w, act) = some v) : Consistent s t v := by
  intro hcount
  have heq : u.count = s.count := le_antisymm (hcount ▸ count_le_step hstep) hle
  have hnone : ∀ x, u.pc x ≠ .writing := by
    intro x hx
    have hodd := hinv.odd.mpr ⟨x, hx⟩
    omega
  obtain ⟨hversion, hseen⟩ := h heq
  have hsame : v.version = u.version := by
    cases step_effect hstep with
    | moves | locks | writes => rfl
    | releases hpc => exact absurd hpc (hnone w)
  refine ⟨hsame.trans hversion, ?_⟩
  intro cookie seen hpc p hp
  obtain ⟨rest, hrest, rfl | ⟨loc, rfl⟩⟩ := reading_step hread hstep hpc
  · exact hseen cookie seen hrest p hp
  · obtain rfl | hp := List.mem_cons.mp hp
    · rw [hinv.settled hnone, hversion]
    · exact hseen cookie rest hrest p hp

theorem consistent_run {cs : List (Thread × Act Loc Val)} (h : RunReading t s cs s') (hs : Inv s)
    (heven : s.count % 2 = 0) (hconsistent : Consistent s t s) :
    Inv s' ∧ s.count ≤ s'.count ∧ Consistent s t s' := by
  refine h.invariant (P := fun u => Inv u ∧ s.count ≤ u.count ∧ Consistent s t u) ⟨hs, le_rfl, hconsistent⟩ ?_
  rintro u v ⟨w, act⟩ ⟨hu, hle, hseen⟩ hread hstep
  exact ⟨inv_step hu hstep, hle.trans (count_le_step hstep), consistent_step heven hle hu hseen hread hstep⟩

theorem readAcquire_spec (h : step s (t, .readAcquire) = some s') :
    s' = s.goto t (.reading s.lock []) := by
  cases hpc : s.pc t with
  | idle =>
    simp only [step, hpc] at h
    exact (Option.some.inj h).symm
  | reading | exchanging | spinning | writing => simp [step, hpc] at h

omit [DecidableEq Thread] [DecidableEq Loc] in
/-- Fewer increments than the lock has values bring it back to a value only when there is none. -/
theorem Inv.count_eq (hs : Inv s) (hs' : Inv s') (hle : s.count ≤ s'.count) (hlt : s'.count < s.count + 2 ^ 64)
    (hlock : s'.lock = s.lock) : s'.count = s.count := by
  have hmod : s'.count % 2 ^ 64 = s.count % 2 ^ 64 := by
    rw [← BitVec.toNat_ofNat, ← BitVec.toNat_ofNat, ← hs'.counted, ← hs.counted, hlock]
  omega

/-- In every reachable state at most one thread is in its write section. A reader whose check succeeds, with fewer
increments since its acquire than the lock has values, has not met a write section from its acquire to its check, and
has read one version. -/
theorem snapshot_consistent {data : Loc → Val} {cs : List (Thread × Act Loc Val)} (h : Run (initial data) cs s) :
    (∀ t u, s.pc t = .writing → s.pc u = .writing → t = u) ∧
      ∀ (t : Thread) (s1 s2 : State Thread Loc Val) (during : List (Thread × Act Loc Val)) (cookie : BitVec 64)
        (seen : List (Loc × Val)),
        step s (t, .readAcquire) = some s1 → RunReading t s1 during s2 → s2.count < s1.count + 2 ^ 64 →
        s2.pc t = .reading cookie seen → readValid s2.lock cookie = true →
        (∀ cs' ds u, during = cs' ++ ds → RunReading t s1 cs' u → RunReading t u ds s2 → ∀ w, u.pc w ≠ .writing) ∧
          s1.data = s1.version ∧ ∀ p ∈ seen, p.2 = s1.version p.1 := by
  have hinv := inv_run h (inv_initial data)
  refine ⟨hinv.unique, ?_⟩
  intro t s1 s2 during cookie seen hacquire hrun hlt hpc hvalid
  have hinv1 := inv_step hinv hacquire
  obtain rfl := readAcquire_spec hacquire
  have hcookie : cookie = s.lock := by
    refine cookie_run hrun ?_ cookie seen hpc
    intro c seen' hread
    rw [goto_pc_self] at hread
    exact (Pc.reading.inj hread).1.symm
  obtain ⟨hodd, hlock⟩ : isOdd cookie = false ∧ s2.lock = cookie := by
    simpa [readValid] using hvalid
  have heven : s.count % 2 = 0 := by
    rw [hcookie, hinv.counted, isOdd_ofNat] at hodd
    have hnot := of_decide_eq_false hodd
    omega
  have hstart : Consistent (s.goto t (.reading s.lock [])) t (s.goto t (.reading s.lock [])) := by
    intro _
    refine ⟨rfl, ?_⟩
    intro c seen' hread p hp
    rw [goto_pc_self] at hread
    rw [← (Pc.reading.inj hread).2] at hp
    cases hp
  obtain ⟨hinv2, hle, hconsistent⟩ := consistent_run hrun hinv1 heven hstart
  have hcount := hinv1.count_eq hinv2 hle hlt (hlock.trans hcookie)
  refine ⟨?_, ?_, (hconsistent hcount).2 cookie seen hpc⟩
  · intro cs' ds u _ hbefore hafter w hw
    obtain ⟨hinvu, hleu, -⟩ := consistent_run hbefore hinv1 heven hstart
    have hleu2 := count_le_run hafter
    have hoddu := hinvu.odd.mpr ⟨w, hw⟩
    change s2.count = s.count at hcount
    change s.count ≤ u.count at hleu
    omega
  · apply hinv1.settled
    intro w hw
    have hodd1 := hinv1.odd.mpr ⟨w, hw⟩
    change s.count % 2 = 1 at hodd1
    omega

/-- A read section of one value that no other thread meets. -/
theorem read_once (loc : Loc) (hidle : s.pc t = .idle) :
    ∃ s1 s2, step s (t, .readAcquire) = some s1 ∧ RunReading t s1 [(t, .read loc)] s2 ∧
      s2.pc t = .reading s.lock [(loc, s.data loc)] ∧ s2.lock = s.lock ∧ s2.count = s1.count := by
  have hpc := goto_pc_self s t (.reading s.lock [])
  refine ⟨s.goto t (.reading s.lock []), (s.goto t (.reading s.lock [])).goto t (.reading s.lock [(loc, s.data loc)]),
    ?_, ?_, goto_pc_self .., rfl, rfl⟩
  · simp only [step, hidle]
  · change RunReading t _ ([] ++ [(t, .read loc)]) _
    apply Execution.snoc .nil
    · intro _
      exact ⟨loc, rfl⟩
    · simp only [step, hpc]
      rfl

/-- A reader after a writer reads what was written. -/
theorem snapshot_after_write :
    ∃ (s s1 s2 : State Bool Unit Nat),
      Run (initial fun _ => 0) [(true, .writeAcquire), (true, .compareExchange false), (true, .write () 5),
        (true, .writeRelease)] s ∧
      step s (false, .readAcquire) = some s1 ∧ RunReading false s1 [(false, .read ())] s2 ∧
      s2.pc false = .reading 2 [((), 5)] ∧ readValid s2.lock 2 = true ∧ s1.version () = 5 := by
  obtain ⟨s, hrun, hidle, hlock, hdata⟩ : ∃ s : State Bool Unit Nat,
      Run (initial fun _ => 0) [(true, .writeAcquire), (true, .compareExchange false), (true, .write () 5),
        (true, .writeRelease)] s ∧ s.pc false = .idle ∧ s.lock = 2 ∧ s.data () = 5 :=
    ⟨_, .snoc (.snoc (.snoc (.snoc .nil trivial rfl) trivial rfl) trivial rfl) trivial rfl, rfl, rfl, rfl⟩
  obtain ⟨s1, s2, hacquire, hread, hpc, hlock2, hcount⟩ := read_once () hidle
  rw [hlock, hdata] at hpc
  have hvalid : readValid s2.lock 2 = true := by
    rw [hlock2, hlock]
    decide
  have hsnapshot := (snapshot_consistent hrun).2 false s1 s2 [(false, .read ())] 2 [((), 5)] hacquire hread
    (by omega) hpc hvalid
  exact ⟨s, s1, s2, hrun, hacquire, hread, hpc, hvalid, (hsnapshot.2.2 ((), 5) (List.mem_singleton_self _)).symm⟩

end XviOs.Concurrency.Seqlock
