import XviOs.Concurrency.Spinlock

namespace XviOs.Concurrency.Spinlock

open Library.Queue Library.Runs State

variable {Thread : Type} (k : Tokens Thread)

/-- Where a thread stands in the queue, and what the tokens hold, when `pc` is its next operation. -/
def PlacedAt (s : State Thread) (t : Thread) : Pc → Prop
  | .idle | .fastAcquire | .clearToken => t ∉ s.queue ∧ s.fast ≠ some t
  | .exchangeLock => t ∉ s.queue ∧ s.fast ≠ some t ∧ s.word k t = queuedSpinlockLocked
  | .linkLoad waiter =>
    isLocked (s.word k t) = true ∧ ∃ a, Behind s.queue a t ∧ waiter = k.address a ∧ getNext (s.word k a) = 0
  | .linkStore waiter flags =>
    isLocked (s.word k t) = true ∧ getNext flags = 0 ∧
      ∃ a, Behind s.queue a t ∧ waiter = k.address a ∧ getNext (s.word k a) = 0 ∧
        (a ∈ s.queue.tail → isLocked flags = true)
  | .spinning =>
    (isLocked (s.word k t) = true ∧ ∃ a, Behind s.queue a t ∧ getNext (s.word k a) = k.address t) ∨
      (isLocked (s.word k t) = false ∧ s.queue.head? = some t)
  | .critical | .fastRelease => s.fast = some t ∨ s.queue.head? = some t
  | .mediumRelease current =>
    s.queue.head? = some t ∧ (getNext current ≠ k.address t → s.queue.getLast? ≠ some t)
  | .awaitNext => s.queue.head? = some t ∧ s.queue.getLast? ≠ some t
  | .unlockNext next current desired =>
    desired = current &&& ~~~queuedSpinlockLocked ∧
      ∃ b rest, s.queue = t :: b :: rest ∧ next = k.address b ∧ getNext (s.word k t) = k.address b

/-- The lock word is the tail of the queue, every thread stands where its next operation supposes it to, and the
tokens link the queue. -/
structure Inv (s : State Thread) : Prop where
  nodup : s.queue.Nodup
  free : s.queue = [] → s.fast = none → s.lock = 0
  held : s.queue = [] → ∀ t, s.fast = some t → s.lock = queuedSpinlockLocked
  tail : ∀ z, s.queue.getLast? = some z →
    s.fast = none ∧ s.lock = lockedVal (k.address z) ∧ getNext (s.word k z) = 0
  placed : ∀ t, PlacedAt k s t (s.pc t)

variable {k} {s s' : State Thread} {t u : Thread}

/-- A thread is placed by its own token and the one in front of it. -/
theorem PlacedAt.frame (hq : s'.queue = s.queue) (hf : s'.fast = s.fast) (hself : s'.word k u = s.word k u)
    (hleft : ∀ a, Behind s.queue a u → s'.word k a = s.word k a) {pc : Pc} (h : PlacedAt k s u pc) :
    PlacedAt k s' u pc := by
  cases pc with
  | idle | fastAcquire | clearToken | critical | fastRelease | mediumRelease | awaitNext =>
    simpa only [PlacedAt, hq, hf] using h
  | exchangeLock => simpa only [PlacedAt, hq, hf, hself] using h
  | linkLoad waiter =>
    obtain ⟨hlocked, a, ha, hw, hn⟩ := h
    exact ⟨by rw [hself]; exact hlocked, a, by rw [hq]; exact ha, hw, by rw [hleft a ha]; exact hn⟩
  | linkStore waiter flags =>
    obtain ⟨hlocked, hflags, a, ha, hw, hn, htail⟩ := h
    refine ⟨by rw [hself]; exact hlocked, hflags, a, by rw [hq]; exact ha, hw, by rw [hleft a ha]; exact hn, ?_⟩
    rw [hq]
    exact htail
  | spinning =>
    obtain ⟨hlocked, a, ha, hn⟩ | ⟨hfree, hhead⟩ := h
    · exact Or.inl ⟨by rw [hself]; exact hlocked, a, by rw [hq]; exact ha, by rw [hleft a ha]; exact hn⟩
    · exact Or.inr ⟨by rw [hself]; exact hfree, by rw [hq]; exact hhead⟩
  | unlockNext next current desired =>
    obtain ⟨hd, b, rest, hqueue, hnext, hn⟩ := h
    exact ⟨hd, b, rest, by rw [hq]; exact hqueue, hnext, by rw [hself]; exact hn⟩

theorem getLast?_ne_none_of_mem (h : t ∈ s.queue) : ∃ z, s.queue.getLast? = some z :=
  ⟨_, List.getLast?_eq_getLast_of_ne_nil (List.ne_nil_of_mem h)⟩

theorem Inv.fast_of_mem (h : Inv k s) (ht : t ∈ s.queue) : s.fast = none := by
  obtain ⟨z, hz⟩ := getLast?_ne_none_of_mem ht
  exact (h.tail z hz).1

/-- Operations of threads that have not joined the queue. -/
def Pc.Outside : Pc → Prop
  | idle | fastAcquire | clearToken | exchangeLock => True
  | _ => False

/-- A thread stands in the queue, or holds the lock without it, exactly when it has joined. -/
theorem PlacedAt.outside {pc : Pc} (h : PlacedAt k s t pc) (hq : t ∉ s.queue) (hf : s.fast ≠ some t) :
    pc.Outside := by
  cases pc with
  | idle | fastAcquire | clearToken | exchangeLock => trivial
  | linkLoad =>
    obtain ⟨-, a, ha, -⟩ := h
    exact hq ha.mem_right
  | linkStore =>
    obtain ⟨-, -, a, ha, -⟩ := h
    exact hq ha.mem_right
  | spinning =>
    obtain ⟨-, a, ha, -⟩ | ⟨-, hhead⟩ := h
    · exact hq ha.mem_right
    · exact hq (List.mem_of_mem_head? hhead)
  | critical | fastRelease =>
    obtain hfast | hhead := h
    · exact hf hfast
    · exact hq (List.mem_of_mem_head? hhead)
  | mediumRelease | awaitNext => exact hq (List.mem_of_mem_head? h.1)
  | unlockNext =>
    obtain ⟨-, b, rest, hqueue, -⟩ := h
    exact hq (by rw [hqueue]; exact List.mem_cons_self ..)

variable [DecidableEq Thread]

theorem goto_pc_self (s : State Thread) (t : Thread) (pc : Pc) : (s.goto t pc).pc t = pc := Function.update_self ..

theorem goto_pc_ne (s : State Thread) (h : u ≠ t) (pc : Pc) : (s.goto t pc).pc u = s.pc u := Function.update_of_ne h ..

/-- A step that changes nothing but the next operation of its thread. -/
theorem Inv.goto (h : Inv k s) {pc : Pc} (hpc : PlacedAt k s t pc) : Inv k (s.goto t pc) where
  nodup := h.nodup
  free := h.free
  held := h.held
  tail := h.tail
  placed := by
    intro u
    by_cases hu : u = t
    · rw [hu, goto_pc_self]
      exact hpc
    · rw [goto_pc_ne s hu]
      exact h.placed u

omit [DecidableEq Thread] in
theorem store_word_ne (s : State Thread) {x : Thread} {a value : BitVec 64} (h : k.address x ≠ a) :
    (s.store a value).word k x = s.word k x := Function.update_of_ne h ..

omit [DecidableEq Thread] in
theorem store_word_self (s : State Thread) (x : Thread) (value : BitVec 64) :
    (s.store (k.address x) value).word k x = value := Function.update_self ..

omit [DecidableEq Thread] in
theorem address_ne (h : u ≠ t) : k.address u ≠ k.address t := fun heq => h (k.injective heq)

omit [DecidableEq Thread] in
/-- A thread that has not joined stays where it is. -/
theorem PlacedAt.keep {pc : Pc} (h : PlacedAt k s u pc) (hout : pc.Outside) (hq : u ∉ s'.queue)
    (hf : s'.fast ≠ some u) (hm : s'.word k u = s.word k u) : PlacedAt k s' u pc := by
  cases pc with
  | idle | fastAcquire | clearToken => exact ⟨hq, hf⟩
  | exchangeLock => exact ⟨hq, hf, hm.trans h.2.2⟩
  | _ => exact hout.elim

theorem placed_update {pc : Pc} (hpc : s'.pc = Function.update s.pc t pc) (ht : PlacedAt k s' t pc)
    (hother : ∀ u, u ≠ t → PlacedAt k s' u (s.pc u)) (u : Thread) : PlacedAt k s' u (s'.pc u) := by
  rw [hpc]
  by_cases hu : u = t
  · rw [hu, Function.update_self]
    exact ht
  · rw [Function.update_of_ne hu]
    exact hother u hu

omit [DecidableEq Thread] in
theorem Inv.empty_of_lock (h : Inv k s) (hlock : ∀ z, s.lock ≠ lockedVal (k.address z)) : s.queue = [] := by
  by_contra hne
  obtain ⟨z, hz⟩ := getLast?_ne_none_of_mem (List.head_mem hne)
  exact hlock z (h.tail z hz).2.1

theorem inv_fastAcquire (h : Inv k s) (hlock : s.lock = 0) :
    Inv k { s.goto t .critical with lock := queuedSpinlockLocked, fast := some t } := by
  have hempty : s.queue = [] := by
    apply h.empty_of_lock
    intro z hz
    exact lockedVal_ne_zero k z (hz.symm.trans hlock)
  have hfast : s.fast = none := by
    by_contra hne
    obtain ⟨x, hx⟩ := Option.ne_none_iff_exists'.mp hne
    have hone := (h.held hempty x hx).symm.trans hlock
    exact absurd hone (by decide)
  have hnot : ∀ u, u ∉ s.queue := by
    intro u
    rw [hempty]
    exact List.not_mem_nil
  constructor
  · exact h.nodup
  · intro _ hnone
    cases hnone
  · intro _ _ _
    rfl
  · intro z hz
    exact absurd (List.mem_of_getLast? hz) (hnot z)
  · refine placed_update (s := s) (t := t) rfl (Or.inl rfl) ?_
    intro u hu
    have hout := (h.placed u).outside (hnot u) (by rw [hfast]; simp)
    exact (h.placed u).keep hout (hnot u) (by simpa using Ne.symm hu) rfl

theorem inv_clearToken (h : Inv k s) (hpc : s.pc t = .clearToken) :
    Inv k ((s.store (k.address t) queuedSpinlockLocked).goto t .exchangeLock) := by
  obtain ⟨hq, hf⟩ : t ∉ s.queue ∧ s.fast ≠ some t := by
    have hplaced := h.placed t
    rw [hpc] at hplaced
    exact hplaced
  have hword : ∀ x, x ≠ t → (s.store (k.address t) queuedSpinlockLocked).word k x = s.word k x :=
    fun x hx => store_word_ne s (address_ne hx)
  have hmem : ∀ x, x ∈ s.queue → x ≠ t := by
    rintro x hx rfl
    exact hq hx
  constructor
  · exact h.nodup
  · exact h.free
  · exact h.held
  · intro z hz
    obtain ⟨hfast, hlock, hnext⟩ := h.tail z hz
    refine ⟨hfast, hlock, ?_⟩
    change getNext ((s.store _ _).word k z) = 0
    rw [hword z (hmem z (List.mem_of_getLast? hz))]
    exact hnext
  · refine placed_update (s := s) (t := t) rfl ⟨hq, hf, store_word_self s t _⟩ ?_
    intro u hu
    refine PlacedAt.frame (s := s) ?_ ?_ ?_ ?_ (h.placed u)
    · rfl
    · rfl
    · exact hword u hu
    · intro a ha
      exact hword a (hmem a ha.mem_left)

theorem inv_fastRelease (h : Inv k s) (hpc : s.pc t = .fastRelease) (hlock : s.lock = queuedSpinlockLocked) :
    Inv k { s.goto t .idle with lock := 0, fast := none } ∧ s.queue = [] := by
  have hempty : s.queue = [] := by
    apply h.empty_of_lock
    intro z hz
    exact lockedVal_ne_locked k z (hz.symm.trans hlock)
  have hnot : ∀ u, u ∉ s.queue := by
    intro u
    rw [hempty]
    exact List.not_mem_nil
  have hfast : s.fast = some t := by
    have hplaced := h.placed t
    rw [hpc] at hplaced
    obtain hfast | hhead := hplaced
    · exact hfast
    · exact absurd (List.mem_of_mem_head? hhead) (hnot t)
  refine ⟨?_, hempty⟩
  constructor
  · exact h.nodup
  · intro _ _
    rfl
  · intro _ _ hsome
    cases hsome
  · intro z hz
    exact absurd (List.mem_of_getLast? hz) (hnot z)
  · refine placed_update (s := s) (t := t) rfl ⟨hnot t, by simp⟩ ?_
    intro u hu
    have hout := (h.placed u).outside (hnot u) (by rw [hfast]; simpa using Ne.symm hu)
    exact (h.placed u).keep hout (hnot u) (by simp) rfl

omit [DecidableEq Thread] in
/-- The others stand where they did when a thread joins at the end. -/
theorem placed_join {lock : BitVec 64} {pcs : Thread → Pc} {pc : Pc} (h : PlacedAt k s u pc) (hu : u ≠ t)
    (hfast : s.fast = none) (ht : t ∉ s.queue) :
    PlacedAt k { s with lock := lock, pc := pcs, queue := s.queue ++ [t] } u pc := by
  have hnot : u ∉ s.queue → u ∉ s.queue ++ [t] := by
    intro hq hmem
    obtain hmem | hmem := List.mem_append.mp hmem
    · exact hq hmem
    · exact hu (List.mem_singleton.mp hmem)
  have hhead : s.queue.head? = some u → (s.queue ++ [t]).head? = some u := by
    intro hh
    rw [List.head?_append, hh]
    rfl
  have hlast : (s.queue ++ [t]).getLast? ≠ some u := by
    rw [List.getLast?_concat]
    simpa using Ne.symm hu
  cases pc with
  | idle | fastAcquire | clearToken => exact ⟨hnot h.1, h.2⟩
  | exchangeLock => exact ⟨hnot h.1, h.2⟩
  | linkLoad waiter =>
    obtain ⟨hlocked, a, ha, hw, hn⟩ := h
    exact ⟨hlocked, a, ha.concat t, hw, hn⟩
  | linkStore waiter flags =>
    obtain ⟨hlocked, hflags, a, ha, hw, hn, htail⟩ := h
    refine ⟨hlocked, hflags, a, ha.concat t, hw, hn, ?_⟩
    intro hmem
    apply htail
    cases hqueue : s.queue with
    | nil => exact absurd ha (by rw [hqueue]; exact not_behind_nil)
    | cons x q =>
      simp only [hqueue, List.cons_append, List.tail_cons, List.mem_append, List.mem_singleton] at hmem
      obtain hmem | rfl := hmem
      · exact hmem
      · exact absurd ha.mem_left ht
  | spinning =>
    obtain ⟨hlocked, a, ha, hn⟩ | ⟨hfree, hh⟩ := h
    · exact Or.inl ⟨hlocked, a, ha.concat t, hn⟩
    · exact Or.inr ⟨hfree, hhead hh⟩
  | critical | fastRelease =>
    obtain hf | hh := h
    · cases hfast.symm.trans hf
    · exact Or.inr (hhead hh)
  | mediumRelease current => exact ⟨hhead h.1, fun _ => hlast⟩
  | awaitNext => exact ⟨hhead h.1, hlast⟩
  | unlockNext next current desired =>
    obtain ⟨hd, b, rest, hqueue, hnext, hn⟩ := h
    exact ⟨hd, b, rest ++ [t], by simp [hqueue], hnext, hn⟩

/-- The thread that exchanges the lock joins at the end of the queue. -/
theorem inv_exchangeLock (h : Inv k s) (hpc : s.pc t = .exchangeLock) (hlock : s.lock ≠ queuedSpinlockLocked) :
    Inv k { s.goto t (if isLocked s.lock then .linkLoad (getNext s.lock) else .critical) with
      lock := lockedVal (k.address t)
      queue := s.queue ++ [t] } := by
  obtain ⟨hq, hf, hword⟩ : t ∉ s.queue ∧ s.fast ≠ some t ∧ s.word k t = queuedSpinlockLocked := by
    have hplaced := h.placed t
    rw [hpc] at hplaced
    exact hplaced
  have hfast : s.fast = none := by
    by_contra hne
    obtain ⟨x, hx⟩ := Option.ne_none_iff_exists'.mp hne
    have hempty : s.queue = [] := by
      by_contra hmem
      cases hx.symm.trans (h.fast_of_mem (List.head_mem hmem))
    exact hlock (h.held hempty x hx)
  constructor
  · refine List.nodup_append.mpr ⟨h.nodup, List.nodup_singleton t, ?_⟩
    rintro a ha b hb rfl
    exact hq (List.mem_singleton.mp hb ▸ ha)
  · intro hempty
    exact absurd hempty (by simp)
  · intro hempty
    exact absurd hempty (by simp)
  · intro z hz
    change (s.queue ++ [t]).getLast? = some z at hz
    rw [List.getLast?_concat] at hz
    obtain rfl := Option.some.inj hz
    refine ⟨hfast, rfl, ?_⟩
    change getNext (s.word k t) = 0
    rw [hword]
    exact getNext_locked
  · refine placed_update (s := s) (t := t) rfl ?_ ?_
    · cases hlast : s.queue.getLast? with
      | none =>
        have hempty := List.getLast?_eq_none_iff.mp hlast
        rw [h.free hempty hfast, if_neg (by decide)]
        right
        change (s.queue ++ [t]).head? = some t
        rw [hempty]
        rfl
      | some z =>
        obtain ⟨-, hz, hnext⟩ := h.tail z hlast
        rw [hz, isLocked_lockedVal, if_pos rfl, getNext_lockedVal]
        refine ⟨?_, z, behind_last hlast t, rfl, hnext⟩
        change isLocked (s.word k t) = true
        rw [hword]
        exact isLocked_locked
    · intro u hu
      exact placed_join (h.placed u) hu hfast hq

omit [DecidableEq Thread] in
/-- The thread whose token is linked. A waiter stays locked, and one that was handed the lock stays unlocked. -/
theorem placed_linked (h : Inv k s) {flags : BitVec 64} {pcs : Thread → Pc} (ht : t ∈ s.queue)
    (hnext : getNext (s.word k t) = 0) (hwaits : ∀ b, Behind s.queue b t → isLocked flags = true)
    (hhanded : s.pc t = .spinning → isLocked (s.word k t) = false → isLocked flags = false) :
    PlacedAt k { s.store (k.address t) (k.address u ||| flags) with pc := pcs } t (s.pc t) := by
  have hself : isLocked ((s.store (k.address t) (k.address u ||| flags)).word k t) = isLocked flags := by
    rw [store_word_self, isLocked_link]
  have hword : ∀ b, Behind s.queue b t → (s.store (k.address t) (k.address u ||| flags)).word k b = s.word k b :=
    fun b hb => store_word_ne s (address_ne (hb.ne h.nodup))
  have hplaced := h.placed t
  cases hpc : s.pc t with
  | idle | fastAcquire | clearToken | exchangeLock =>
    rw [hpc] at hplaced
    exact absurd ht hplaced.1
  | critical | fastRelease | mediumRelease | awaitNext =>
    rw [hpc] at hplaced
    exact hplaced
  | linkLoad w =>
    rw [hpc] at hplaced
    obtain ⟨-, b, hb, hw, hn⟩ := hplaced
    exact ⟨hself.trans (hwaits b hb), b, hb, hw, (congrArg getNext (hword b hb)).trans hn⟩
  | linkStore w f =>
    rw [hpc] at hplaced
    obtain ⟨-, hf, b, hb, hw, hn, htail⟩ := hplaced
    exact ⟨hself.trans (hwaits b hb), hf, b, hb, hw, (congrArg getNext (hword b hb)).trans hn, htail⟩
  | spinning =>
    rw [hpc] at hplaced
    obtain ⟨-, b, hb, hn⟩ | ⟨hfree, hhead⟩ := hplaced
    · exact Or.inl ⟨hself.trans (hwaits b hb), b, hb, (congrArg getNext (hword b hb)).trans hn⟩
    · exact Or.inr ⟨hself.trans (hhanded hpc hfree), hhead⟩
  | unlockNext n c d =>
    rw [hpc] at hplaced
    obtain ⟨-, b, rest, hqueue, -, hn⟩ := hplaced
    rw [hnext] at hn
    exact absurd hn.symm (k.ne_zero b)

/-- The store that links a thread to the one in front of it. It must not lock a waiter that was handed the lock. -/
theorem inv_linkStore (h : Inv k s) {waiter flags : BitVec 64} (hpc : s.pc t = .linkStore waiter flags)
    (hallowed : isLocked flags = true → ∀ u, k.address u = waiter → s.pc u = .spinning →
      isLocked (s.mem waiter) = true) :
    Inv k ((s.store waiter (k.address t ||| flags)).goto t .spinning) := by
  obtain ⟨hlocked, hflags, a, ha, rfl, hnext, htail⟩ : PlacedAt k s t (.linkStore waiter flags) := hpc ▸ h.placed t
  have hat : a ≠ t := ha.ne h.nodup
  have hword : ∀ x, x ≠ a → (s.store (k.address a) (k.address t ||| flags)).word k x = s.word k x :=
    fun x hx => store_word_ne s (address_ne hx)
  constructor
  · exact h.nodup
  · exact h.free
  · exact h.held
  · intro z hz
    obtain ⟨hfast, hlock, hz'⟩ := h.tail z hz
    refine ⟨hfast, hlock, ?_⟩
    have hza : z ≠ a := by
      rintro rfl
      exact ha.ne_last h.nodup hz
    change getNext ((s.store _ _).word k z) = 0
    rw [hword z hza]
    exact hz'
  · refine placed_update (s := s) (t := t) rfl (Or.inl ⟨?_, a, ha, ?_⟩) ?_
    · change isLocked ((s.store _ _).word k t) = true
      rw [hword t hat.symm]
      exact hlocked
    · change getNext ((s.store _ _).word k a) = k.address t
      rw [store_word_self, getNext_link k t hflags]
    intro u hu
    by_cases hua : u = a
    · obtain rfl := hua
      refine placed_linked h ha.mem_left hnext (fun b hb => htail hb.mem_tail) ?_
      intro hspin hfree
      apply Bool.eq_false_of_not_eq_true
      intro hflag
      exact absurd hfree (by rw [State.word, hallowed hflag u rfl hspin]; simp)
    · refine PlacedAt.frame (s := s) ?_ ?_ ?_ ?_ (h.placed u)
      · rfl
      · rfl
      · exact hword u hua
      · intro b hb
        apply hword
        rintro rfl
        exact hu (hb.unique_left ha h.nodup)

end XviOs.Concurrency.Spinlock
