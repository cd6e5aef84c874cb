import XviOs.Concurrency.SpinlockInvariant

namespace XviOs.Concurrency.Spinlock

open Library.Queue Library.Runs State

variable {Thread : Type} [DecidableEq Thread] {k : Tokens Thread} {s s' : State Thread} {t u : Thread}

omit [DecidableEq Thread] in
theorem eq_singleton {q : List Thread} (hq : q.Nodup) (hhead : q.head? = some t) (hlast : q.getLast? = some t) :
    q = [t] := by
  cases q with
  | nil => cases hhead
  | cons x q =>
    obtain rfl := Option.some.inj hhead
    cases q with
    | nil => rfl
    | cons y q =>
      rw [List.getLast?_cons_cons] at hlast
      exact absurd (List.mem_of_getLast? hlast) (List.nodup_cons.mp hq).1

theorem inv_mediumRelease (h : Inv k s) {current : BitVec 64} (hpc : s.pc t = .mediumRelease current)
    (hnext : getNext current = k.address t) (hlock : s.lock = current) :
    Inv k { s.goto t .idle with lock := 0, queue := s.queue.erase t } ∧ s.queue = [t] ∧ s.fast = none := by
  obtain ⟨hhead, -⟩ : PlacedAt k s t (.mediumRelease current) := hpc ▸ h.placed t
  obtain ⟨z, hz⟩ := getLast?_ne_none_of_mem (List.mem_of_mem_head? hhead)
  obtain ⟨hfast, hlockz, -⟩ := h.tail z hz
  have hzt : z = t := by
    apply k.injective
    rw [← getNext_lockedVal k z, ← hlockz, hlock, hnext]
  rw [hzt] at hz
  have hqueue := eq_singleton h.nodup hhead hz
  have hempty : s.queue.erase t = [] := by rw [hqueue, List.erase_cons_head]
  refine ⟨?_, hqueue, hfast⟩
  rw [hempty]
  constructor
  · exact List.nodup_nil
  · intro _ _
    rfl
  · intro _ x hx
    cases hfast.symm.trans hx
  · intro x hx
    cases hx
  · refine placed_update (s := s) (t := t) rfl ⟨List.not_mem_nil, ?_⟩ ?_
    · change s.fast ≠ some t
      rw [hfast]
      simp
    · intro x hx
      have hnot : x ∉ s.queue := by
        rw [hqueue]
        simpa using hx
      have hfastx : s.fast ≠ some x := by
        rw [hfast]
        simp
      exact (h.placed x).keep ((h.placed x).outside hnot hfastx) List.not_mem_nil hfastx rfl

omit [DecidableEq Thread] in
/-- The second in the queue, once it is linked, spins. -/
theorem spinning_of_linked (h : Inv k s) {rest : List Thread} (hqueue : s.queue = t :: u :: rest)
    (hnext : getNext (s.word k t) = k.address u) : s.pc u = .spinning := by
  have hbehind : Behind s.queue t u := by
    rw [hqueue, behind_cons]
    exact Or.inl ⟨rfl, rfl⟩
  have hhead := hbehind.ne_head h.nodup
  have hne : getNext (s.word k t) ≠ 0 := by
    rw [hnext]
    exact k.ne_zero u
  have hplaced := h.placed u
  cases hpc : s.pc u with
  | spinning => rfl
  | idle | fastAcquire | clearToken | exchangeLock =>
    rw [hpc] at hplaced
    exact absurd hbehind.mem_right hplaced.1
  | linkLoad w =>
    rw [hpc] at hplaced
    obtain ⟨-, a, ha, -, hn⟩ := hplaced
    rw [ha.unique hbehind h.nodup] at hn
    exact absurd hn hne
  | linkStore w f =>
    rw [hpc] at hplaced
    obtain ⟨-, -, a, ha, -, hn, -⟩ := hplaced
    rw [ha.unique hbehind h.nodup] at hn
    exact absurd hn hne
  | critical | fastRelease =>
    rw [hpc] at hplaced
    obtain hf | hh := hplaced
    · cases (h.fast_of_mem hbehind.mem_right).symm.trans hf
    · exact absurd hh hhead
  | mediumRelease | awaitNext =>
    rw [hpc] at hplaced
    exact absurd hplaced.1 hhead
  | unlockNext =>
    rw [hpc] at hplaced
    obtain ⟨-, b, rest', hq, -⟩ := hplaced
    exact absurd (by rw [hq]; rfl) hhead

omit [DecidableEq Thread] in
/-- Threads other than the first two stand where they did when the first leaves, as long as no link changes. -/
theorem placed_leave {b : Thread} {rest : List Thread} {pc : Pc} (h : PlacedAt k s u pc)
    (hqueue : s.queue = t :: b :: rest) (hut : u ≠ t) (hub : u ≠ b) (hfast : s.fast = none)
    (hq' : s'.queue = b :: rest) (hf' : s'.fast = none) (hself : s'.word k u = s.word k u)
    (hlinks : ∀ x, getNext (s'.word k x) = getNext (s.word k x)) : PlacedAt k s' u pc := by
  have hhead : s.queue.head? ≠ some u := by
    rw [hqueue]
    simpa using Ne.symm hut
  have hbehind : ∀ a, Behind s.queue a u → Behind s'.queue a u := by
    intro a ha
    rw [hqueue] at ha
    rw [hq']
    exact ha.of_cons (by simpa using Ne.symm hub)
  have hnot : u ∉ s.queue → u ∉ s'.queue := by
    rw [hqueue, hq']
    exact fun hmem hmem' => hmem (List.mem_cons_of_mem _ hmem')
  have hnone : s'.fast ≠ some u := by
    rw [hf']
    simp
  cases pc with
  | idle | fastAcquire | clearToken => exact ⟨hnot h.1, hnone⟩
  | exchangeLock => exact ⟨hnot h.1, hnone, hself.trans h.2.2⟩
  | linkLoad w =>
    obtain ⟨hl, a, ha, hw, hn⟩ := h
    exact ⟨(congrArg isLocked hself).trans hl, a, hbehind a ha, hw, (hlinks a).trans hn⟩
  | linkStore w f =>
    obtain ⟨hl, hflags, a, ha, hw, hn, htail⟩ := h
    refine ⟨(congrArg isLocked hself).trans hl, hflags, a, hbehind a ha, hw, (hlinks a).trans hn, ?_⟩
    intro hmem
    apply htail
    rw [hq'] at hmem
    rw [hqueue]
    exact List.mem_cons_of_mem _ hmem
  | spinning =>
    obtain ⟨hl, a, ha, hn⟩ | ⟨-, hh⟩ := h
    · exact Or.inl ⟨(congrArg isLocked hself).trans hl, a, hbehind a ha, (hlinks a).trans hn⟩
    · exact absurd hh hhead
  | critical | fastRelease =>
    obtain hf | hh := h
    · cases hfast.symm.trans hf
    · exact absurd hh hhead
  | mediumRelease | awaitNext => exact absurd h.1 hhead
  | unlockNext =>
    obtain ⟨-, c, rest', hq, -⟩ := h
    exact absurd (by rw [hq]; rfl) hhead

/-- The lock is handed to the next in the queue. -/
theorem inv_unlockNext (h : Inv k s) {next current desired : BitVec 64}
    (hpc : s.pc t = .unlockNext next current desired) (hmem : s.mem next = current) :
    Inv k { (s.store next desired).goto t .idle with queue := s.queue.erase t } ∧
      ∃ b rest, s.queue = t :: b :: rest ∧ s.pc b = .spinning ∧ next = k.address b ∧ isLocked desired = false := by
  obtain ⟨rfl, b, rest, hqueue, rfl, hlink⟩ : PlacedAt k s t (.unlockNext next current desired) := hpc ▸ h.placed t
  have hspin := spinning_of_linked h hqueue hlink
  have hnodup := h.nodup
  rw [hqueue] at hnodup
  obtain ⟨htmem, hnodup'⟩ := List.nodup_cons.mp hnodup
  have hbt : b ≠ t := by
    rintro rfl
    exact htmem (List.mem_cons_self ..)
  have herase : s.queue.erase t = b :: rest := by rw [hqueue, List.erase_cons_head]
  have hfast : s.fast = none := h.fast_of_mem (by rw [hqueue]; exact List.mem_cons_self ..)
  have hword : ∀ x, x ≠ b → (s.store (k.address b) (current &&& ~~~queuedSpinlockLocked)).word k x = s.word k x :=
    fun x hx => store_word_ne s (address_ne hx)
  have hlinks : ∀ x, getNext ((s.store (k.address b) (current &&& ~~~queuedSpinlockLocked)).word k x) =
      getNext (s.word k x) := by
    intro x
    by_cases hx : x = b
    · rw [hx, store_word_self, getNext_unlock, State.word, hmem]
    · rw [hword x hx]
  refine ⟨?_, b, rest, hqueue, hspin, rfl, isLocked_unlock current⟩
  rw [herase]
  constructor
  · exact hnodup'
  · intro hempty
    cases hempty
  · intro hempty
    cases hempty
  · intro z hz
    obtain ⟨hf, hlock, hz'⟩ := h.tail z (by rw [hqueue, List.getLast?_cons_cons]; exact hz)
    exact ⟨hf, hlock, (hlinks z).trans hz'⟩
  · refine placed_update (s := s) (t := t) rfl ⟨htmem, ?_⟩ ?_
    · change s.fast ≠ some t
      rw [hfast]
      simp
    · intro x hx
      by_cases hxb : x = b
      · obtain rfl := hxb
        rw [hspin]
        refine Or.inr ⟨?_, rfl⟩
        change isLocked ((s.store (k.address x) _).word k x) = false
        rw [store_word_self]
        exact isLocked_unlock current
      · exact placed_leave (h.placed x) hqueue hx hxb hfast rfl hfast (hword x hxb) hlinks

/-- The steps that keep the lock in order: a thread does not join the queue while the lock is held by one that is not
in it; a compare-exchange that finds the lock without a queue does not fail; and the store of a link does not lock a
waiter that was handed the lock since its flags were loaded. -/
def Allowed (k : Tokens Thread) (s : State Thread) : Thread × Act → Prop
  | (t, .proceed spurious) =>
    match s.pc t with
    | .exchangeLock => s.lock ≠ queuedSpinlockLocked
    | .fastRelease => s.lock = queuedSpinlockLocked → spurious = false
    | .linkStore waiter flags => isLocked flags = true → ∀ u, k.address u = waiter → s.pc u = .spinning →
      isLocked (s.mem waiter) = true
    | _ => True
  | _ => True

/-- What one step of `t` does to the queue, and to the lock when it is the last of a release: the lock is free and no
thread waits, or it is handed to the one behind `t`, whose loop then ends. -/
structure Orderly (k : Tokens Thread) (t : Thread) (s s' : State Thread) : Prop where
  queue : s'.queue = s.queue ∨ (s.pc t = .exchangeLock ∧ s'.queue = s.queue ++ [t]) ∨
    (s'.pc t = .idle ∧ s.queue = t :: s'.queue)
  released : s.pc t ≠ .idle → s'.pc t = .idle →
    (s'.lock = 0 ∧ s'.queue = [] ∧ s'.fast = none) ∨
      ∃ u rest, s.queue = t :: u :: rest ∧ s'.queue = u :: rest ∧ s'.pc u = .spinning ∧
        isLocked (s'.word k u) = false

theorem orderly_goto {pc : Pc} (hpc : pc ≠ .idle) : Orderly k t s (s.goto t pc) where
  queue := Or.inl rfl
  released := by
    intro _ hidle
    rw [goto_pc_self] at hidle
    exact absurd hidle hpc

omit [DecidableEq Thread] in
theorem orderly_refl : Orderly k t s s where
  queue := Or.inl rfl
  released := fun hne hidle => absurd hidle hne

omit [DecidableEq Thread] in
/-- A thread behind the head waits. -/
theorem Inv.waits (h : Inv k s) (ht : t ∈ s.queue.tail) :
    isLocked (s.word k t) = true ∧ ∃ a, Behind s.queue a t ∧
      ((∃ w, s.pc t = .linkLoad w ∧ getNext (s.word k a) = 0) ∨
        (∃ w f, s.pc t = .linkStore w f ∧ getNext (s.word k a) = 0) ∨
        (s.pc t = .spinning ∧ getNext (s.word k a) = k.address t)) := by
  have hmem := List.mem_of_mem_tail ht
  have hhead : s.queue.head? ≠ some t := by
    intro hh
    cases hq : s.queue with
    | nil => rw [hq] at hmem; cases hmem
    | cons x q =>
      have hnodup := h.nodup
      rw [hq] at hh ht hnodup
      obtain rfl := Option.some.inj hh
      exact (List.nodup_cons.mp hnodup).1 ht
  have hplaced := h.placed t
  cases hpc : s.pc t with
  | idle | fastAcquire | clearToken | exchangeLock =>
    rw [hpc] at hplaced
    exact absurd hmem hplaced.1
  | linkLoad w =>
    rw [hpc] at hplaced
    obtain ⟨hl, a, ha, -, hn⟩ := hplaced
    exact ⟨hl, a, ha, Or.inl ⟨w, rfl, hn⟩⟩
  | linkStore w f =>
    rw [hpc] at hplaced
    obtain ⟨hl, -, a, ha, -, hn, -⟩ := hplaced
    exact ⟨hl, a, ha, Or.inr (Or.inl ⟨w, f, rfl, hn⟩)⟩
  | spinning =>
    rw [hpc] at hplaced
    obtain ⟨hl, a, ha, hn⟩ | ⟨-, hh⟩ := hplaced
    · exact ⟨hl, a, ha, Or.inr (Or.inr ⟨rfl, hn⟩)⟩
    · exact absurd hh hhead
  | critical | fastRelease =>
    rw [hpc] at hplaced
    obtain hf | hh := hplaced
    · cases (h.fast_of_mem hmem).symm.trans hf
    · exact absurd hh hhead
  | mediumRelease | awaitNext =>
    rw [hpc] at hplaced
    exact absurd hplaced.1 hhead
  | unlockNext =>
    rw [hpc] at hplaced
    obtain ⟨-, b, rest, hq, -⟩ := hplaced
    exact absurd (by rw [hq]; rfl) hhead

omit [DecidableEq Thread] in
/-- The lock that a releasing thread loads tells whether it is the last in the queue. -/
theorem Inv.placed_mediumRelease (h : Inv k s) (hhead : s.queue.head? = some t) :
    PlacedAt k s t (.mediumRelease s.lock) := by
  refine ⟨hhead, ?_⟩
  intro hne hlast
  apply hne
  rw [(h.tail t hlast).2.1, getNext_lockedVal]

omit [DecidableEq Thread] in
theorem Inv.placed_unlockNext (h : Inv k s) (hhead : s.queue.head? = some t) (hlast : s.queue.getLast? ≠ some t)
    (hlink : getNext (s.word k t) ≠ 0) :
    PlacedAt k s t (.unlockNext (getNext (s.word k t)) queuedSpinlockLocked 0) := by
  obtain ⟨b, rest, hqueue⟩ : ∃ b rest, s.queue = t :: b :: rest := by
    cases hq : s.queue with
    | nil =>
      rw [hq] at hhead
      cases hhead
    | cons x q =>
      rw [hq] at hhead hlast
      obtain rfl := Option.some.inj hhead
      cases q with
      | nil => exact absurd rfl hlast
      | cons b rest => exact ⟨b, rest, rfl⟩
  have hbehind : Behind s.queue t b := by
    rw [hqueue, behind_cons]
    exact Or.inl ⟨rfl, rfl⟩
  obtain ⟨-, a, ha, hcases⟩ := h.waits hbehind.mem_tail
  obtain rfl := ha.unique hbehind h.nodup
  refine ⟨by decide, b, rest, hqueue, ?_, ?_⟩
  · obtain ⟨w, -, hn⟩ | ⟨w, f, -, hn⟩ | ⟨-, hn⟩ := hcases
    · exact absurd hn hlink
    · exact absurd hn hlink
    · exact hn
  · obtain ⟨w, -, hn⟩ | ⟨w, f, -, hn⟩ | ⟨-, hn⟩ := hcases
    · exact absurd hn hlink
    · exact absurd hn hlink
    · exact hn

theorem inv_proceed (h : Inv k s) {spurious : Bool} (hallowed : Allowed k s (t, .proceed spurious)) :
    Inv k (s.proceed k t spurious) ∧ Orderly k t s (s.proceed k t spurious) := by
  have hplaced := h.placed t
  rw [Allowed] at hallowed
  rw [State.proceed]
  cases hpc : s.pc t with
  | idle | critical => exact ⟨h, orderly_refl⟩
  | fastAcquire =>
    rw [hpc] at hplaced
    change Inv k (if _ then _ else _) ∧ Orderly k t s (if _ then _ else _)
    split
    · rename_i hlock
      refine ⟨inv_fastAcquire h hlock.1, Or.inl rfl, ?_⟩
      intro _ hidle
      cases (goto_pc_self s t .critical).symm.trans hidle
    · exact ⟨h.goto hplaced, orderly_goto (by simp)⟩
  | clearToken =>
    refine ⟨inv_clearToken h hpc, Or.inl rfl, ?_⟩
    intro _ hidle
    cases (goto_pc_self (s.store _ _) t .exchangeLock).symm.trans hidle
  | exchangeLock =>
    rw [hpc] at hallowed
    refine ⟨inv_exchangeLock h hpc hallowed, Or.inr (Or.inl ⟨hpc, rfl⟩), ?_⟩
    intro _ hidle
    have hpc' := (goto_pc_self s t _).symm.trans hidle
    split at hpc' <;> cases hpc'
  | linkLoad waiter =>
    rw [hpc] at hplaced
    obtain ⟨hlocked, a, ha, rfl, hn⟩ := hplaced
    refine ⟨h.goto ⟨hlocked, getNext_flags _, a, ha, rfl, hn, ?_⟩, orderly_goto (by simp)⟩
    intro hmem
    rw [isLocked_flags]
    exact (h.waits hmem).1
  | linkStore waiter flags =>
    rw [hpc] at hallowed
    refine ⟨inv_linkStore h hpc hallowed, Or.inl rfl, ?_⟩
    intro _ hidle
    cases (goto_pc_self (s.store _ _) t .spinning).symm.trans hidle
  | spinning =>
    rw [hpc] at hplaced
    change Inv k (if _ then _ else _) ∧ Orderly k t s (if _ then _ else _)
    split
    · exact ⟨h, orderly_refl⟩
    · rename_i hfree
      obtain ⟨hl, -⟩ | ⟨-, hhead⟩ := hplaced
      · exact absurd hl hfree
      · exact ⟨h.goto (Or.inr hhead), orderly_goto (by simp)⟩
  | fastRelease =>
    rw [hpc] at hallowed hplaced
    change Inv k (if _ then _ else _) ∧ Orderly k t s (if _ then _ else _)
    split
    · rename_i hlock
      obtain ⟨hinv, hempty⟩ := inv_fastRelease h hpc hlock.1
      refine ⟨hinv, Or.inl rfl, ?_⟩
      intro _ _
      exact Or.inl ⟨rfl, hempty, rfl⟩
    · rename_i hfail
      refine ⟨h.goto (h.placed_mediumRelease ?_), orderly_goto (by simp)⟩
      obtain hfast | hhead := hplaced
      · have hempty : s.queue = [] := by
          by_contra hne
          cases (h.fast_of_mem (List.head_mem hne)).symm.trans hfast
        have hlock := h.held hempty t hfast
        exact absurd ⟨hlock, hallowed hlock⟩ hfail
      · exact hhead
  | mediumRelease current =>
    rw [hpc] at hplaced
    change Inv k (if _ then (if _ then _ else _) else _) ∧ Orderly k t s (if _ then (if _ then _ else _) else _)
    split
    · rename_i hnext
      split
      · rename_i hlock
        obtain ⟨hinv, hqueue, hfast⟩ := inv_mediumRelease h hpc hnext hlock.1
        have herase : s.queue.erase t = [] := by rw [hqueue, List.erase_cons_head]
        refine ⟨hinv, Or.inr (Or.inr ⟨goto_pc_self s t .idle, ?_⟩), ?_⟩
        · change s.queue = t :: s.queue.erase t
          rw [herase]
          exact hqueue
        · intro _ _
          exact Or.inl ⟨rfl, herase, hfast⟩
      · exact ⟨h.goto (h.placed_mediumRelease hplaced.1), orderly_goto (by simp)⟩
    · rename_i hnext
      exact ⟨h.goto ⟨hplaced.1, hplaced.2 hnext⟩, orderly_goto (by simp)⟩
  | awaitNext =>
    rw [hpc] at hplaced
    change Inv k (if _ then _ else _) ∧ Orderly k t s (if _ then _ else _)
    split
    · exact ⟨h, orderly_refl⟩
    · rename_i hlink
      exact ⟨h.goto (h.placed_unlockNext hplaced.1 hplaced.2 hlink), orderly_goto (by simp)⟩
  | unlockNext next current desired =>
    rw [hpc] at hplaced
    change Inv k (if _ then _ else _) ∧ Orderly k t s (if _ then _ else _)
    split
    · rename_i hmem
      obtain ⟨hinv, b, rest, hqueue, hspin, rfl, hfree⟩ := inv_unlockNext h hpc hmem.1
      have herase : s.queue.erase t = b :: rest := by rw [hqueue, List.erase_cons_head]
      have hbt : b ≠ t := by
        rintro rfl
        cases hspin.symm.trans hpc
      refine ⟨hinv, Or.inr (Or.inr ⟨goto_pc_self (s.store _ _) t .idle, ?_⟩), ?_⟩
      · change s.queue = t :: s.queue.erase t
        rw [herase]
        exact hqueue
      · intro _ _
        refine Or.inr ⟨b, rest, hqueue, herase, ?_, ?_⟩
        · exact (goto_pc_ne (s.store _ _) hbt .idle).trans hspin
        · exact (congrArg isLocked (store_word_self s b desired)).trans hfree
    · obtain ⟨-, b, rest, hqueue, hnext, hlink⟩ := hplaced
      exact ⟨h.goto ⟨rfl, b, rest, hqueue, hnext, hlink⟩, orderly_goto (by simp)⟩

theorem inv_step (h : Inv k s) {act : Act} (hallowed : Allowed k s (t, act)) (hstep : step k s (t, act) = some s') :
    Inv k s' ∧ Orderly k t s s' := by
  have hplaced := h.placed t
  cases act with
  | acquire =>
    rw [step] at hstep
    split at hstep
    · rename_i hpc
      obtain rfl := Option.some.inj hstep
      rw [hpc] at hplaced
      exact ⟨h.goto hplaced, orderly_goto (by simp)⟩
    · cases hstep
  | release =>
    rw [step] at hstep
    split at hstep
    · rename_i hpc
      obtain rfl := Option.some.inj hstep
      rw [hpc] at hplaced
      exact ⟨h.goto hplaced, orderly_goto (by simp)⟩
    · cases hstep
  | proceed spurious =>
    rw [step] at hstep
    split at hstep
    · cases hstep
    · obtain rfl := Option.some.inj hstep
      exact inv_proceed h hallowed

omit [DecidableEq Thread] in
theorem inv_initial (mem : BitVec 64 → BitVec 64) : Inv k (initial mem : State Thread) where
  nodup := List.nodup_nil
  free := fun _ _ => rfl
  held := by
    intro _ t ht
    cases ht
  tail := by
    intro z hz
    cases hz
  placed := fun t => ⟨List.not_mem_nil, by simp [initial]⟩

/-- At most one thread holds the lock, no null pointer is followed, and every thread that waits is in the queue: its
bit is set unless it has come to the front, which ends its wait. -/
structure Safe (k : Tokens Thread) (s : State Thread) : Prop where
  exclusive : ∀ t u, s.pc t = .critical → s.pc u = .critical → t = u
  nonnull : ∀ t a, (s.pc t).pointer = some a → a ≠ 0
  waiting : ∀ t, (s.pc t).Waiting → t ∈ s.queue ∧ (isLocked (s.word k t) = false ↔ s.queue.head? = some t)
  front : ∀ t, s.queue.head? = some t → ¬ (s.pc t).Waiting ∨ (s.pc t = .spinning ∧ isLocked (s.word k t) = false)

omit [DecidableEq Thread] in
theorem Inv.holder (h : Inv k s) (hpc : s.pc t = .critical) :
    (s.fast = some t ∧ s.queue = []) ∨ (s.fast = none ∧ s.queue.head? = some t) := by
  obtain hfast | hhead : PlacedAt k s t .critical := hpc ▸ h.placed t
  · refine Or.inl ⟨hfast, ?_⟩
    by_contra hne
    cases (h.fast_of_mem (List.head_mem hne)).symm.trans hfast
  · exact Or.inr ⟨h.fast_of_mem (List.mem_of_mem_head? hhead), hhead⟩

omit [DecidableEq Thread] in
theorem Inv.waiting (h : Inv k s) (hwait : (s.pc t).Waiting) :
    (isLocked (s.word k t) = true ∧ ∃ a, Behind s.queue a t) ∨
      (s.pc t = .spinning ∧ isLocked (s.word k t) = false ∧ s.queue.head? = some t) := by
  have hplaced := h.placed t
  cases hpc : s.pc t with
  | linkLoad w =>
    rw [hpc] at hplaced
    obtain ⟨hl, a, ha, -⟩ := hplaced
    exact Or.inl ⟨hl, a, ha⟩
  | linkStore w f =>
    rw [hpc] at hplaced
    obtain ⟨hl, -, a, ha, -⟩ := hplaced
    exact Or.inl ⟨hl, a, ha⟩
  | spinning =>
    rw [hpc] at hplaced
    obtain ⟨hl, a, ha, -⟩ | ⟨hl, hhead⟩ := hplaced
    · exact Or.inl ⟨hl, a, ha⟩
    · exact Or.inr ⟨rfl, hl, hhead⟩
  | _ =>
    rw [hpc] at hwait
    exact hwait.elim

omit [DecidableEq Thread] in
theorem Inv.safe (h : Inv k s) : Safe k s where
  exclusive := by
    intro t u ht hu
    obtain ⟨hft, -⟩ | ⟨hft, hht⟩ := h.holder ht
    · obtain ⟨hfu, -⟩ | ⟨hfu, -⟩ := h.holder hu
      · exact Option.some.inj (hft.symm.trans hfu)
      · cases hft.symm.trans hfu
    · obtain ⟨hfu, -⟩ | ⟨-, hhu⟩ := h.holder hu
      · cases hft.symm.trans hfu
      · exact Option.some.inj (hht.symm.trans hhu)
  nonnull := by
    intro t a ha
    have hplaced := h.placed t
    cases hpc : s.pc t with
    | linkLoad w =>
      rw [hpc] at hplaced ha
      obtain ⟨-, b, -, rfl, -⟩ := hplaced
      obtain rfl := Option.some.inj ha
      exact k.ne_zero b
    | linkStore w f =>
      rw [hpc] at hplaced ha
      obtain ⟨-, -, b, -, rfl, -⟩ := hplaced
      obtain rfl := Option.some.inj ha
      exact k.ne_zero b
    | unlockNext n c d =>
      rw [hpc] at hplaced ha
      obtain ⟨-, b, -, -, rfl, -⟩ := hplaced
      obtain rfl := Option.some.inj ha
      exact k.ne_zero b
    | _ =>
      rw [hpc] at ha
      cases ha
  waiting := by
    intro t hwait
    obtain ⟨hl, a, ha⟩ | ⟨-, hl, hhead⟩ := h.waiting hwait
    · exact ⟨ha.mem_right, iff_of_false (by simp [hl]) (ha.ne_head h.nodup)⟩
    · exact ⟨List.mem_of_mem_head? hhead, iff_of_true hl hhead⟩
  front := by
    intro t hhead
    by_cases hwait : (s.pc t).Waiting
    · obtain ⟨-, a, ha⟩ | ⟨hpc, hl, -⟩ := h.waiting hwait
      · exact absurd hhead (ha.ne_head h.nodup)
      · exact Or.inr ⟨hpc, hl⟩
    · exact Or.inl hwait

/-- In every run of allowed steps the lock is safe, and every further allowed step leaves the queue in order. -/
theorem run_safe {mem : BitVec 64 → BitVec 64} {cs : List (Thread × Act)}
    (h : Execution (step k) (Allowed k) (initial mem) cs s) :
    Safe k s ∧ ∀ t act s', Allowed k s (t, act) → step k s (t, act) = some s' → Orderly k t s s' := by
  have hinv : Inv k s := by
    refine h.invariant (inv_initial mem) ?_
    rintro u v ⟨t, act⟩ hu hallowed hstep
    exact (inv_step hu hallowed hstep).1
  exact ⟨hinv.safe, fun t act s' hallowed hstep => (inv_step hinv hallowed hstep).2⟩

/-- Two threads, with tokens at 8 and 16. -/
def twoTokens : Tokens Bool where
  address t := if t then 8 else 16
  injective := by decide
  aligned := by decide
  ne_zero := by decide

/-- The first thread joins the empty queue, the second one joins behind it, and the first one releases the lock. -/
def handOver : List (Bool × Act) :=
  [(true, .acquire), (true, .proceed true), (true, .proceed false), (true, .proceed false), (false, .acquire),
    (false, .proceed false), (false, .proceed false), (false, .proceed false), (false, .proceed false),
    (false, .proceed false), (true, .release), (true, .proceed false), (true, .proceed false), (true, .proceed false),
    (true, .proceed false)]

/-- The second thread is handed the lock. -/
theorem run_safe_handed :
    ∃ s, Execution (step twoTokens) (Allowed twoTokens) (initial fun _ => 0) handOver s ∧
      s.pc false = .spinning ∧ isLocked (s.word twoTokens false) = false ∧ Safe twoTokens s := by
  obtain ⟨s, h, hpc, hfree⟩ : ∃ s, Execution (step twoTokens) (Allowed twoTokens) (initial fun _ => 0) handOver s ∧
      s.pc false = .spinning ∧ isLocked (s.word twoTokens false) = false := by
    refine ⟨_, .snoc (.snoc (.snoc (.snoc (.snoc (.snoc (.snoc (.snoc (
      .snoc (.snoc (.snoc (.snoc (.snoc (.snoc (.snoc .nil ?_ rfl) ?_ rfl) ?_ rfl) ?_ rfl) ?_ rfl) ?_ rfl) ?_ rfl)
      ?_ rfl) ?_ rfl) ?_ rfl) ?_ rfl) ?_ rfl) ?_ rfl) ?_ rfl) ?_ rfl, rfl, by decide⟩
    all_goals try exact trivial
    · exact (by decide : (0 : BitVec 64) ≠ queuedSpinlockLocked)
    · exact (by decide : (9 : BitVec 64) ≠ queuedSpinlockLocked)
    · exact fun _ _ _ _ => rfl
    · exact fun _ => rfl
  exact ⟨s, h, hpc, hfree, (run_safe h).1⟩

/-- When a thread joins while another holds the lock without being in the queue, the tail that it finds is null, and
it is followed. -/
theorem null_waiter :
    ∃ s, Execution (step twoTokens) (fun _ _ => True) (initial fun _ => 0)
        [(true, .acquire), (true, .proceed false), (false, .acquire), (false, .proceed false),
          (false, .proceed false), (false, .proceed false)] s ∧
      s.pc true = .critical ∧ (s.pc false).pointer = some 0 :=
  ⟨_, .snoc (.snoc (.snoc (.snoc (.snoc (.snoc .nil trivial rfl) trivial rfl) trivial rfl) trivial rfl) trivial rfl)
    trivial rfl, rfl, by decide⟩

end XviOs.Concurrency.Spinlock
