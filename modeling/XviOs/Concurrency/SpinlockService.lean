import XviOs.Concurrency.SpinlockRuns
import XviOs.Library.Traces

namespace XviOs.Concurrency.Spinlock

open Library.Queue Library.Runs State

variable {Thread : Type} [DecidableEq Thread] {k : Tokens Thread} {s s' : State Thread} {t u b : Thread}
  {rest : List Thread} {act : Act} {spurious : Bool} {X : Set Thread} {n : Nat} {P : State Thread → Prop}
  {cs : List (Thread × Act)} {mem : BitVec 64 → BitVec 64}

/-! ## The order of service -/

instance : DecidablePred Pc.Waiting
  | .linkLoad _ | .linkStore _ _ | .spinning => .isTrue trivial
  | .idle | .fastAcquire | .clearToken | .exchangeLock | .critical | .fastRelease | .mediumRelease _ | .awaitNext
  | .unlockNext _ _ _ => .isFalse id

/-- The thread that joins the queue in the step. -/
def joins (s : State Thread) : Thread × Act → State Thread → List Thread
  | (t, .proceed _), _ => if s.pc t = .exchangeLock then [t] else []
  | _, _ => []

/-- The thread that has joined and gets the lock in the step. -/
def enters (s : State Thread) : Thread × Act → State Thread → List Thread
  | (t, .proceed _), s' => if s'.pc t = .critical ∧ (s.pc t = .exchangeLock ∨ s.pc t = .spinning) then [t] else []
  | _, _ => []

/-- The threads that have joined and not got the lock yet, the first one in front. -/
def waiters (s : State Thread) : List Thread := s.queue.filter fun t => (s.pc t).Waiting

omit [DecidableEq Thread] in
theorem waiters_congr (hqueue : s'.queue = s.queue) (hpc : ∀ u ∈ s.queue, (s'.pc u).Waiting ↔ (s.pc u).Waiting) :
    waiters s' = waiters s := by
  rw [waiters, waiters, hqueue]
  apply List.filter_congr
  intro u hu
  exact decide_eq_decide.mpr (hpc u hu)

/-- The operation that a thread that waits goes on with, or does not, is not in question. -/
theorem waiters_goto (s : State Thread) {pc : Pc} (h : pc.Waiting ↔ (s.pc t).Waiting) :
    waiters (s.goto t pc) = waiters s := by
  refine waiters_congr (s := s) rfl fun u _ => ?_
  by_cases hu : u = t
  · rw [hu, goto_pc_self, h]
  · rw [goto_pc_ne s hu]

/-- A thread that has the lock and leaves was not waiting. -/
theorem waiters_leave (hpc : s'.pc = Function.update s.pc t .idle) (hqueue : s.queue = t :: s'.queue)
    (hnodup : s.queue.Nodup) (ht : ¬ (s.pc t).Waiting) : waiters s' = waiters s := by
  rw [waiters, waiters, hqueue, List.filter_cons_of_neg (by simpa using ht)]
  rw [hqueue] at hnodup
  apply List.filter_congr
  intro u hu
  have hne : u ≠ t := by
    rintro rfl
    exact (List.nodup_cons.mp hnodup).1 hu
  rw [hpc, Function.update_of_ne hne]

omit [DecidableEq Thread] in
/-- A step in which nobody joins and nobody gets the lock. -/
theorem waiters_quiet (hjoin : s.pc t ≠ .exchangeLock) (hspin : s.pc t = .spinning → s'.pc t ≠ .critical)
    (hsame : waiters s' = waiters s) :
    waiters s ++ joins s (t, .proceed spurious) s' = enters s (t, .proceed spurious) s' ++ waiters s' := by
  have hnone : ¬ (s'.pc t = .critical ∧ (s.pc t = .exchangeLock ∨ s.pc t = .spinning)) :=
    fun ⟨hcritical, hpc⟩ => hpc.elim hjoin fun hpc => hspin hpc hcritical
  rw [joins, enters, if_neg hjoin, if_neg hnone, hsame, List.append_nil, List.nil_append]

theorem waiters_proceed (h : Inv k s) (hallowed : Allowed k s (t, .proceed spurious)) :
    waiters s ++ joins s (t, .proceed spurious) (s.proceed k t spurious) =
      enters s (t, .proceed spurious) (s.proceed k t spurious) ++ waiters (s.proceed k t spurious) := by
  have hplaced := h.placed t
  have hnodup := h.nodup
  rw [Allowed] at hallowed
  rw [State.proceed]
  cases hpc : s.pc t with
  | idle | critical => exact waiters_quiet (by simp [hpc]) (by simp [hpc]) rfl
  | fastAcquire =>
    apply waiters_quiet (by simp [hpc]) (by simp [hpc])
    change waiters (if _ then _ else _) = _
    split
    · exact waiters_goto s (by rw [hpc]; exact Iff.rfl)
    · exact waiters_goto s (by rw [hpc]; exact Iff.rfl)
  | clearToken =>
    apply waiters_quiet (by simp [hpc]) (by simp [hpc])
    exact waiters_goto (s.store _ _) (show _ ↔ (s.pc t).Waiting by rw [hpc]; exact Iff.rfl)
  | exchangeLock =>
    rw [hpc] at hallowed hplaced
    have hq : t ∉ s.queue := hplaced.1
    have hother (pc : Pc) (u : Thread) (hu : u ∈ s.queue) : (s.goto t pc).pc u = s.pc u := by
      apply goto_pc_ne
      rintro rfl
      exact hq hu
    have hold (pc : Pc) : (s.queue.filter fun u => decide ((s.goto t pc).pc u).Waiting) = waiters s := by
      apply List.filter_congr
      intro u hu
      rw [hother pc u hu]
    rw [joins, if_pos hpc]
    by_cases hlocked : isLocked s.lock = true
    · -- the thread waits behind the others
      rw [if_pos hlocked, enters, if_neg fun hand => by cases (goto_pc_self s t _).symm.trans hand.1]
      change waiters s ++ [t] = (s.queue ++ [t]).filter _
      rw [List.filter_append, hold, List.filter_cons_of_pos (by rw [goto_pc_self]; exact decide_eq_true trivial)]
      rfl
    · have hempty : s.queue = [] := by
        by_contra hne
        obtain ⟨z, hz⟩ := getLast?_ne_none_of_mem (List.head_mem hne)
        rw [(h.tail z hz).2.1] at hlocked
        exact hlocked (isLocked_lockedVal k z)
      have hnone : waiters s = [] := by
        rw [waiters, hempty]
        rfl
      rw [if_neg hlocked, enters, if_pos ⟨goto_pc_self s t .critical, .inl hpc⟩]
      change waiters s ++ [t] = [t] ++ (s.queue ++ [t]).filter _
      rw [List.filter_append, hold, List.filter_cons_of_neg (by rw [goto_pc_self]; exact Bool.false_ne_true), hnone]
      rfl
  | linkLoad waiter =>
    apply waiters_quiet (by simp [hpc]) (by simp [hpc])
    exact waiters_goto s (by rw [hpc]; exact Iff.rfl)
  | linkStore waiter flags =>
    apply waiters_quiet (by simp [hpc]) (by simp [hpc])
    exact waiters_goto (s.store _ _) (show _ ↔ (s.pc t).Waiting by rw [hpc]; exact Iff.rfl)
  | spinning =>
    rw [hpc] at hplaced
    change waiters s ++ joins _ _ (if _ then _ else _) = enters _ _ (if _ then _ else _) ++ waiters (if _ then _ else _)
    split
    · exact waiters_quiet (by simp [hpc]) (by simp [hpc]) rfl
    · rename_i hfree
      obtain ⟨hl, -⟩ | ⟨-, hhead⟩ := hplaced
      · exact absurd hl hfree
      · -- the thread at the front gets the lock
        obtain ⟨rest, hqueue⟩ : ∃ rest, s.queue = t :: rest := List.head?_eq_some_iff.mp hhead
        rw [hqueue] at hnodup
        have hrest : waiters (s.goto t .critical) = rest.filter fun u => (s.pc u).Waiting := by
          change ((s.queue).filter _) = _
          rw [hqueue, List.filter_cons_of_neg (by rw [goto_pc_self]; exact Bool.false_ne_true)]
          apply List.filter_congr
          intro u hu
          rw [goto_pc_ne]
          rintro rfl
          exact (List.nodup_cons.mp hnodup).1 hu
        rw [hrest, waiters, hqueue, List.filter_cons_of_pos (by rw [hpc]; exact decide_eq_true trivial)]
        simp [joins, enters, hpc, goto_pc_self]
  | fastRelease =>
    apply waiters_quiet (by simp [hpc]) (by simp [hpc])
    change waiters (if _ then _ else _) = _
    split
    · exact waiters_goto s (by rw [hpc]; exact Iff.rfl)
    · exact waiters_goto s (by rw [hpc]; exact Iff.rfl)
  | mediumRelease current =>
    apply waiters_quiet (by simp [hpc]) (by simp [hpc])
    change waiters (if _ then (if _ then _ else _) else _) = _
    split
    · rename_i hnext
      split
      · rename_i hlock
        obtain ⟨-, hqueue, -⟩ := inv_mediumRelease h hpc hnext hlock.1
        refine waiters_leave (s := s) (t := t) rfl ?_ hnodup (by rw [hpc]; exact id)
        change s.queue = t :: s.queue.erase t
        rw [hqueue, List.erase_cons_head]
      · exact waiters_goto s (by rw [hpc]; exact Iff.rfl)
    · exact waiters_goto s (by rw [hpc]; exact Iff.rfl)
  | awaitNext =>
    apply waiters_quiet (by simp [hpc]) (by simp [hpc])
    change waiters (if _ then _ else _) = _
    split
    · rfl
    · exact waiters_goto s (by rw [hpc]; exact Iff.rfl)
  | unlockNext next current desired =>
    apply waiters_quiet (by simp [hpc]) (by simp [hpc])
    change waiters (if _ then _ else _) = _
    split
    · rename_i hmem
      obtain ⟨-, b, rest, hqueue, -⟩ := inv_unlockNext h hpc hmem.1
      refine waiters_leave (s := s) (t := t) rfl ?_ hnodup (by rw [hpc]; exact id)
      change s.queue = t :: s.queue.erase t
      rw [hqueue, List.erase_cons_head]
    · exact waiters_goto s (by rw [hpc]; exact Iff.rfl)

/-- In one step the waiters lose those at the front that get the lock, and those who join wait at the end. -/
theorem waiters_step (h : Inv k s) (hallowed : Allowed k s (t, act)) (hstep : step k s (t, act) = some s') :
    waiters s ++ joins s (t, act) s' = enters s (t, act) s' ++ waiters s' := by
  cases act with
  | acquire =>
    rw [step] at hstep
    split at hstep
    · rename_i hpc
      obtain rfl := Option.some.inj hstep
      simp only [joins, enters, List.append_nil, List.nil_append]
      exact (waiters_goto s (by rw [hpc]; exact Iff.rfl)).symm
    · cases hstep
  | release =>
    rw [step] at hstep
    split at hstep
    · rename_i hpc
      obtain rfl := Option.some.inj hstep
      simp only [joins, enters, List.append_nil, List.nil_append]
      exact (waiters_goto s (by rw [hpc]; exact Iff.rfl)).symm
    · cases hstep
  | proceed spurious =>
    rw [step] at hstep
    split at hstep
    · cases hstep
    · obtain rfl := Option.some.inj hstep
      exact waiters_proceed h hallowed

theorem Inv.execution (h : Inv k s) (hrun : Execution (step k) (Allowed k) s cs s') : Inv k s' := by
  refine hrun.invariant h ?_
  rintro u v ⟨t, act⟩ hu hallowed hstep
  exact (inv_step hu hallowed hstep).1

/-- In every run the threads get the lock in the order in which they joined the queue, and those that have not got it
yet are its waiters. -/
theorem served_in_order (h : Execution (step k) (Allowed k) (initial mem) cs s) :
    trace (step k) joins (initial mem) cs = trace (step k) enters (initial mem) cs ++ waiters s := by
  have hinit : Inv k (initial mem : State Thread) := inv_initial mem
  induction h with
  | nil => rfl
  | @snoc cs s s' c hrun hallowed hstep ih =>
    obtain ⟨t, act⟩ := c
    rw [trace_snoc hrun hstep, trace_snoc hrun hstep, ih, List.append_assoc, List.append_assoc,
      waiters_step (hinit.execution hrun) hallowed hstep]

/-- The first thread has joined the empty queue and got the lock, and the second one has joined behind it. -/
def joinedRun : List (Bool × Act) :=
  [(true, .acquire), (true, .proceed true), (true, .proceed false), (true, .proceed false), (false, .acquire),
    (false, .proceed false), (false, .proceed false), (false, .proceed false)]

theorem execution_joinedRun : ∃ s, Execution (step twoTokens) (Allowed twoTokens) (initial fun _ => 0) joinedRun s ∧
    (s.pc false).Waiting := by
  refine ⟨_, .snoc (.snoc (.snoc (.snoc (.snoc (.snoc (.snoc (.snoc .nil trivial rfl) trivial rfl) trivial rfl) ?_ rfl)
    trivial rfl) trivial rfl) trivial rfl) ?_ rfl, ?_⟩
  · exact (by decide : (0 : BitVec 64) ≠ queuedSpinlockLocked)
  · exact (by decide : (9 : BitVec 64) ≠ queuedSpinlockLocked)
  · exact (trivial : Pc.Waiting (.linkLoad 8))

theorem served_in_order_joined : ∃ s, (s.pc false).Waiting ∧
    trace (step twoTokens) joins (initial fun _ => 0) joinedRun =
      trace (step twoTokens) enters (initial fun _ => 0) joinedRun ++ waiters s := by
  obtain ⟨s, hrun, hwait⟩ := execution_joinedRun
  exact ⟨s, hwait, served_in_order hrun⟩

/-! ## No waiter is stuck -/

/-- Steps of the threads of `X` alone, at most `n` of them, lead to a state of `P`. -/
def Serves (k : Tokens Thread) (X : Set Thread) (n : Nat) (s : State Thread) (P : State Thread → Prop) : Prop :=
  Leads (step k) (Allowed k) {c | c.1 ∈ X} n s fun s' => Inv k s' ∧ P s'

theorem Serves.proceed (h : Inv k s) (ht : t ∈ X) (hpc : s.pc t ≠ .idle ∧ s.pc t ≠ .critical)
    (hallowed : Allowed k s (t, .proceed false)) (hrest : Inv k (s.proceed k t false) →
      Serves k X n (s.proceed k t false) P) : Serves k X (n + 1) s P := by
  have hstep : step k s (t, .proceed false) = some (s.proceed k t false) := if_neg (not_or.mpr hpc)
  exact Leads.cons ht hallowed hstep (hrest (inv_step h hallowed hstep).1)

section Leaves

variable (h : Inv k s) (hqueue : s.queue = t :: b :: rest) (ht : t ∈ X) (hb : b ∈ X)
include h hqueue ht

/-- The lock is handed over in two attempts at most: the second one knows the word of the next thread. -/
theorem serves_unlockNext {next current desired : BitVec 64} (hpc : s.pc t = .unlockNext next current desired) :
    Serves k X 2 s fun s' => s'.queue = b :: rest ∧ s'.pc b = .spinning := by
  have hdone (s : State Thread) (h : Inv k s) (hqueue : s.queue = t :: b :: rest) {next current desired : BitVec 64}
      (hpc : s.pc t = .unlockNext next current desired) (hmem : s.mem next = current) :
      Serves k X 1 s fun s' => s'.queue = b :: rest ∧ s'.pc b = .spinning := by
    apply Serves.proceed h ht (by simp [hpc]) (by rw [Allowed, hpc]; trivial)
    intro hinv
    have heq : s.proceed k t false =
        { (s.store next desired).goto t .idle with queue := s.queue.erase t } := by
      rw [State.proceed, hpc]
      exact if_pos ⟨hmem, rfl⟩
    obtain ⟨-, b', rest', hqueue', hspin, -⟩ := inv_unlockNext h hpc hmem
    obtain ⟨-, rfl, rfl⟩ : t = t ∧ b = b' ∧ rest = rest' := by simpa [hqueue] using hqueue'
    refine .here ⟨hinv, ?_, ?_⟩
    · rw [heq]
      change s.queue.erase t = _
      rw [hqueue, List.erase_cons_head]
    · rw [heq]
      refine (goto_pc_ne (s.store _ _) ?_ .idle).trans hspin
      rintro rfl
      cases hspin.symm.trans hpc
  by_cases hmem : s.mem next = current
  · exact (hdone s h hqueue hpc hmem).mono (by decide)
  · apply Serves.proceed h ht (by simp [hpc]) (by rw [Allowed, hpc]; trivial)
    intro hinv
    have heq : s.proceed k t false =
        s.goto t (.unlockNext next (s.mem next) (s.mem next &&& ~~~queuedSpinlockLocked)) := by
      rw [State.proceed, hpc]
      exact if_neg fun hand => hmem hand.1
    rw [heq] at hinv ⊢
    exact hdone _ hinv hqueue (goto_pc_self ..) rfl

theorem serves_linked (hpc : s.pc t = .awaitNext) (hlink : getNext (s.word k t) ≠ 0) :
    Serves k X 3 s fun s' => s'.queue = b :: rest ∧ s'.pc b = .spinning := by
  apply Serves.proceed h ht (by simp [hpc]) (by rw [Allowed, hpc]; trivial)
  intro hinv
  have heq : s.proceed k t false = s.goto t (.unlockNext (getNext (s.word k t)) queuedSpinlockLocked 0) := by
    rw [State.proceed, hpc]
    exact if_neg hlink
  rw [heq] at hinv ⊢
  exact serves_unlockNext hinv hqueue ht (goto_pc_self ..)

include hb

/-- The next thread links itself, which the one at the front waits for. -/
theorem serves_awaitNext (hpc : s.pc t = .awaitNext) :
    Serves k X 5 s fun s' => s'.queue = b :: rest ∧ s'.pc b = .spinning := by
  have hstored (s : State Thread) (h : Inv k s) (hqueue : s.queue = t :: b :: rest) (hpc : s.pc t = .awaitNext)
      {waiter flags : BitVec 64} (hpcb : s.pc b = .linkStore waiter flags) :
      Serves k X 4 s fun s' => s'.queue = b :: rest ∧ s'.pc b = .spinning := by
    obtain ⟨-, hflags, a, ha, rfl, -⟩ : PlacedAt k s b (.linkStore waiter flags) := hpcb ▸ h.placed b
    have hbehind : Behind s.queue t b := by
      rw [hqueue, behind_cons]
      exact Or.inl ⟨rfl, rfl⟩
    obtain rfl := ha.unique hbehind h.nodup
    have hallowed : Allowed k s (b, .proceed false) := by
      rw [Allowed, hpcb]
      intro _ u hu hspin
      rw [k.injective hu, hpc] at hspin
      cases hspin
    apply Serves.proceed h hb (by simp [hpcb]) hallowed
    intro hinv
    have heq : s.proceed k b false = (s.store (k.address a) (k.address b ||| flags)).goto b .spinning := by
      rw [State.proceed, hpcb]
    rw [heq] at hinv ⊢
    apply serves_linked hinv hqueue ht
    · exact (goto_pc_ne (s.store _ _) (hbehind.ne h.nodup) .spinning).trans hpc
    · change getNext ((s.store _ _).word k a) ≠ 0
      rw [store_word_self, getNext_link k b hflags]
      exact k.ne_zero b
  have htail : b ∈ s.queue.tail := by
    rw [hqueue]
    exact List.mem_cons_self ..
  obtain ⟨-, a, ha, ⟨w, hpcb, -⟩ | ⟨w, f, hpcb, -⟩ | ⟨-, hn⟩⟩ := h.waits htail
  · apply Serves.proceed h hb (by simp [hpcb]) (by rw [Allowed, hpcb]; trivial)
    intro hinv
    have heq : s.proceed k b false = s.goto b (.linkStore w (s.mem w &&& queuedSpinlockFlags)) := by
      rw [State.proceed, hpcb]
    rw [heq] at hinv ⊢
    apply hstored _ hinv hqueue _ (goto_pc_self ..)
    refine (goto_pc_ne s ?_ _).trans hpc
    rintro rfl
    cases hpcb.symm.trans hpc
  · exact (hstored s h hqueue hpc hpcb).mono (by decide)
  · have hbehind : Behind s.queue t b := by
      rw [hqueue, behind_cons]
      exact Or.inl ⟨rfl, rfl⟩
    obtain rfl := ha.unique hbehind h.nodup
    exact (serves_linked h hqueue ht hpc (by rw [hn]; exact k.ne_zero b)).mono (by decide)

/-- Behind the thread at the front there is another one, so that the lock does not point to it. -/
theorem serves_mediumRelease {current : BitVec 64} (hpc : s.pc t = .mediumRelease current) :
    Serves k X 7 s fun s' => s'.queue = b :: rest ∧ s'.pc b = .spinning := by
  have hother (s : State Thread) (h : Inv k s) (hqueue : s.queue = t :: b :: rest) :
      getNext s.lock ≠ k.address t := by
    obtain ⟨z, hz⟩ := getLast?_ne_none_of_mem (s := s) (t := t) (by rw [hqueue]; exact List.mem_cons_self ..)
    rw [(h.tail z hz).2.1, getNext_lockedVal]
    apply address_ne
    rintro rfl
    have hnodup := h.nodup
    rw [hqueue] at hz hnodup
    rw [List.getLast?_cons_cons] at hz
    exact (List.nodup_cons.mp hnodup).1 (List.mem_of_getLast? hz)
  have hlast (s : State Thread) (h : Inv k s) (hqueue : s.queue = t :: b :: rest) {current : BitVec 64}
      (hpc : s.pc t = .mediumRelease current) (hne : getNext current ≠ k.address t) :
      Serves k X 6 s fun s' => s'.queue = b :: rest ∧ s'.pc b = .spinning := by
    apply Serves.proceed h ht (by simp [hpc]) (by rw [Allowed, hpc]; trivial)
    intro hinv
    have heq : s.proceed k t false = s.goto t .awaitNext := by
      rw [State.proceed, hpc]
      exact if_neg hne
    rw [heq] at hinv ⊢
    exact serves_awaitNext hinv hqueue ht hb (goto_pc_self ..)
  by_cases hne : getNext current = k.address t
  · apply Serves.proceed h ht (by simp [hpc]) (by rw [Allowed, hpc]; trivial)
    intro hinv
    have heq : s.proceed k t false = s.goto t (.mediumRelease s.lock) := by
      rw [State.proceed, hpc]
      simp only [if_pos hne]
      apply if_neg
      rintro ⟨hlock, -⟩
      exact hother s h hqueue (hlock ▸ hne)
    rw [heq] at hinv ⊢
    exact hlast _ hinv hqueue (goto_pc_self ..) (hother s h hqueue)
  · exact (hlast s h hqueue hpc hne).mono (by decide)

theorem serves_fastRelease (hpc : s.pc t = .fastRelease) :
    Serves k X 8 s fun s' => s'.queue = b :: rest ∧ s'.pc b = .spinning := by
  obtain ⟨z, hz⟩ := getLast?_ne_none_of_mem (s := s) (t := t) (by rw [hqueue]; exact List.mem_cons_self ..)
  have hlock : s.lock ≠ queuedSpinlockLocked := by
    rw [(h.tail z hz).2.1]
    exact lockedVal_ne_locked k z
  apply Serves.proceed h ht (by simp [hpc]) (by rw [Allowed, hpc]; exact fun _ => rfl)
  intro hinv
  have heq : s.proceed k t false = s.goto t (.mediumRelease s.lock) := by
    rw [State.proceed, hpc]
    exact if_neg fun hand => hlock hand.1
  rw [heq] at hinv ⊢
  exact serves_mediumRelease hinv hqueue ht hb (goto_pc_self ..)

theorem serves_critical (hpc : s.pc t = .critical) :
    Serves k X 9 s fun s' => s'.queue = b :: rest ∧ s'.pc b = .spinning := by
  have hstep : step k s (t, .release) = some (s.goto t .fastRelease) := if_pos hpc
  have hallowed : Allowed k s (t, .release) := trivial
  have hinv := (inv_step h hallowed hstep).1
  exact Leads.cons ht hallowed hstep (serves_fastRelease hinv hqueue ht hb (goto_pc_self ..))

/-- Wherever the thread at the front stands, it and the next one can bring about that the next one has the front. -/
theorem serves_next : Serves k X 10 s fun s' => s'.queue = b :: rest ∧ s'.pc b = .spinning := by
  have hhead : s.queue.head? = some t := by
    rw [hqueue]
    rfl
  have hmem := List.mem_of_mem_head? hhead
  have hplaced := h.placed t
  cases hpc : s.pc t with
  | idle | fastAcquire | clearToken | exchangeLock =>
    rw [hpc] at hplaced
    exact absurd hmem hplaced.1
  | linkLoad w =>
    rw [hpc] at hplaced
    obtain ⟨-, a, ha, -⟩ := hplaced
    exact absurd hhead (ha.ne_head h.nodup)
  | linkStore w f =>
    rw [hpc] at hplaced
    obtain ⟨-, -, a, ha, -⟩ := hplaced
    exact absurd hhead (ha.ne_head h.nodup)
  | spinning =>
    rw [hpc] at hplaced
    obtain ⟨-, a, ha, -⟩ | ⟨hfree, -⟩ := hplaced
    · exact absurd hhead (ha.ne_head h.nodup)
    · apply Serves.proceed h ht (by simp [hpc]) (by rw [Allowed, hpc]; trivial)
      intro hinv
      have heq : s.proceed k t false = s.goto t .critical := by
        rw [State.proceed, hpc]
        exact if_neg (by simp [hfree])
      rw [heq] at hinv ⊢
      exact serves_critical hinv hqueue ht hb (goto_pc_self ..)
  | critical => exact (serves_critical h hqueue ht hb hpc).mono (by decide)
  | fastRelease => exact (serves_fastRelease h hqueue ht hb hpc).mono (by decide)
  | mediumRelease current => exact (serves_mediumRelease h hqueue ht hb hpc).mono (by decide)
  | awaitNext => exact (serves_awaitNext h hqueue ht hb hpc).mono (by decide)
  | unlockNext next current desired => exact (serves_unlockNext h hqueue ht hpc).mono (by decide)

end Leaves

theorem serves_waiting (h : Inv k s) (hX : ∀ u ∈ s.queue, u ∈ X) (hwait : (s.pc t).Waiting) :
    Serves k X (10 * s.queue.idxOf t + 1) s fun s' => s'.pc t = .critical := by
  obtain ⟨q, hq⟩ : ∃ q, s.queue = q := ⟨_, rfl⟩
  rw [hq] at hX ⊢
  induction q generalizing s with
  | nil =>
    have hmem := (h.safe.waiting t hwait).1
    rw [hq] at hmem
    cases hmem
  | cons x q ih =>
    have hmem := (h.safe.waiting t hwait).1
    by_cases hx : x = t
    · subst hx
      have hhead : s.queue.head? = some x := by
        rw [hq]
        rfl
      obtain hout | ⟨hpc, hfree⟩ := h.safe.front x hhead
      · exact absurd hwait hout
      · rw [List.idxOf_cons_self]
        apply Serves.proceed h (hX x (List.mem_cons_self ..)) (by simp [hpc]) (by rw [Allowed, hpc]; trivial)
        intro hinv
        have heq : s.proceed k x false = s.goto x .critical := by
          rw [State.proceed, hpc]
          exact if_neg (by simp [hfree])
        rw [heq] at hinv ⊢
        exact .here ⟨hinv, goto_pc_self ..⟩
    · cases q with
      | nil =>
        rw [hq] at hmem
        exact absurd (List.mem_singleton.mp hmem).symm hx
      | cons b rest =>
        have hfirst := serves_next h hq (hX x (by simp)) (hX b (by simp))
        have hcount : 10 * ((b :: rest).idxOf t + 1) + 1 = 10 + (10 * (b :: rest).idxOf t + 1) := by omega
        rw [List.idxOf_cons_ne _ hx, Nat.succ_eq_add_one, hcount]
        apply Leads.trans hfirst
        rintro s' ⟨hinv, hqueue, hspin⟩
        refine ih hinv ?_ (fun u hu => hX u (List.mem_cons_of_mem x hu)) hqueue
        -- the thread has not got the lock, so that it still waits
        rw [hq] at hmem
        obtain rfl | hmem := List.mem_cons.mp ((List.mem_cons.mp hmem).resolve_left (Ne.symm hx))
        · rw [hspin]
          trivial
        · have htail : t ∈ s'.queue.tail := by rwa [hqueue]
          obtain ⟨-, a, -, ⟨w, hpc, -⟩ | ⟨w, f, hpc, -⟩ | ⟨hpc, -⟩⟩ := hinv.waits htail <;> rw [hpc] <;> trivial

/-- In every state of a run a thread that waits gets the lock if the threads of the queue go on: ten steps for each of
those in front of it, and one of its own, can be enough. -/
theorem waiter_served (h : Execution (step k) (Allowed k) (initial mem) cs s) (hwait : (s.pc t).Waiting) :
    ∃ ds s', ds.length ≤ 10 * s.queue.idxOf t + 1 ∧ (∀ c ∈ ds, c.1 ∈ s.queue) ∧
      Execution (step k) (Allowed k) s ds s' ∧ s'.pc t = .critical := by
  obtain ⟨ds, s', hlength, hown, hrun, -, hpc⟩ :=
    serves_waiting ((inv_initial mem).execution h) (fun u hu => hu) hwait
  exact ⟨ds, s', hlength, hown, hrun, hpc⟩

theorem waiter_served_joined : ∃ s s' ds, Execution (step twoTokens) (Allowed twoTokens) s ds s' ∧
    (s.pc false).Waiting ∧ s'.pc false = .critical := by
  obtain ⟨s, hrun, hwait⟩ := execution_joinedRun
  obtain ⟨ds, s', -, -, hserve, hpc⟩ := waiter_served hrun hwait
  exact ⟨s, s', ds, hserve, hwait, hpc⟩

end XviOs.Concurrency.Spinlock
