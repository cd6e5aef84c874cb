import XviOs.Allocator.Session

namespace XviOs.Allocator

open Library.Runs Chunk Tile SizeClass

variable {gap : Nat → UInt64} {s : Arena} {h : Heap} {t u : Tile} {n need j : Nat} {x : Nat × Nat}
  {bins : Nat → List (Nat × Nat)}

/-- The free chunk `t` is big enough for a request of `n` bytes. -/
def Heap.Adequate (h : Heap) (n : Nat) (t : Tile) : Prop :=
  t ∈ h.tiles ∧ t.free = true ∧ userSizeToChunkSize n ≤ t.size

/-- `t` is a smallest chunk that is big enough. -/
def Heap.Smallest (h : Heap) (n : Nat) (t : Tile) : Prop :=
  h.Adequate n t ∧ ∀ u, h.Adequate n u → t.size ≤ u.size

/-- `allocate` fails only if no free chunk is big enough, and takes a smallest one
of those that are. -/
def Arena.BestFit (s : Arena) (h : Heap) (n : Nat) : Prop :=
  ∃ ptr size s', s.allocate n = some ((ptr, size), s') ∧
    (ptr = 0 → ∀ t, ¬ h.Adequate n t) ∧ (ptr ≠ 0 → ∃ t, h.Smallest n t ∧ t.addr + 8 = ptr)

/-- A smallest chunk that is big enough stands in the first bin, from the bin of
the request on, in which there is any. -/
def Heap.InFirstBin (h : Heap) (n : Nat) : Prop :=
  ∀ t, h.Smallest n t → sizeToBinIndex (userSizeToChunkSize n) ≤ sizeToBinIndex t.size ∧
    ∀ u, h.Adequate n u → sizeToBinIndex (userSizeToChunkSize n) ≤ sizeToBinIndex u.size →
      sizeToBinIndex t.size ≤ sizeToBinIndex u.size

theorem Holds.mem_bin_iff (hs : Holds gap s h) :
    x ∈ h.bins j ↔ j = sizeToBinIndex x.2 ∧ ∃ t ∈ h.tiles, t.free = true ∧ (t.addr, t.size) = x := by
  rw [hs.image.binned.mem, mem_freeChunks]

/-- The search fails if the chunks that are big enough are in bins before that
of the request. -/
theorem search_none (hs : Holds gap s h) (hf : h.search n = none) :
    ∀ t, h.Adequate n t → sizeToBinIndex t.size < sizeToBinIndex (userSizeToChunkSize n) := by
  intro t ⟨htm, htf, hle⟩
  by_contra hbin
  have hmem : (t.addr, t.size) ∈ h.bins (sizeToBinIndex t.size) := hs.mem_bin_iff.mpr ⟨rfl, t, htm, htf, rfl⟩
  have hlt := sizeToBinIndex_lt t.size
  have hlt' := sizeToBinIndex_lt (userSizeToChunkSize n)
  rw [Heap.search] at hf
  have := firstFit_none hf (sizeToBinIndex t.size) (t.addr, t.size) (by omega) (by omega) hmem
  dsimp only at this
  omega

/-- The first entry of a sorted bin that is big enough is a smallest one. -/
theorem find?_smallest {l : List (Nat × Nat)} (hs : l.Pairwise (fun x y => x.2 ≤ y.2))
    (hf : l.find? (fun x => need ≤ x.2) = some x) : ∀ y ∈ l, need ≤ y.2 → x.2 ≤ y.2 := by
  induction l with
  | nil => simp at hf
  | cons z l ih =>
      obtain ⟨hz, hl⟩ := List.pairwise_cons.mp hs
      intro y hy hle
      rw [List.find?_cons] at hf
      by_cases hzn : need ≤ z.2
      · simp only [hzn, decide_true, Option.some.injEq] at hf
        subst hf
        rcases List.mem_cons.mp hy with rfl | hy
        · exact le_rfl
        · exact hz y hy
      · simp only [hzn, decide_false] at hf
        rcases List.mem_cons.mp hy with rfl | hy
        · exact absurd hle hzn
        · exact ih hl hf y hy hle

/-- The search finds a smallest chunk of the first bin in which there is any. -/
theorem search_some (hs : Holds gap s h) (hsort : h.Sorted) (hf : h.search n = some x) :
    ∃ t, h.Adequate n t ∧ (t.addr, t.size) = x ∧
      sizeToBinIndex (userSizeToChunkSize n) ≤ sizeToBinIndex t.size ∧
      ∀ u, h.Adequate n u → sizeToBinIndex (userSizeToChunkSize n) ≤ sizeToBinIndex u.size →
        sizeToBinIndex t.size ≤ sizeToBinIndex u.size ∧
          (sizeToBinIndex u.size = sizeToBinIndex t.size → t.size ≤ u.size) := by
  rw [Heap.search] at hf
  obtain ⟨hle, j, hj, _, hfind, hbefore⟩ := firstFit_some hf
  obtain ⟨rfl, t, htm, htf, rfl⟩ := hs.mem_bin_iff.mp (List.mem_of_find?_eq_some hfind)
  refine ⟨t, ⟨htm, htf, hle⟩, rfl, hj, fun u hu hbin => ?_⟩
  obtain ⟨hum, huf, hule⟩ := hu
  have hmem : (u.addr, u.size) ∈ h.bins (sizeToBinIndex u.size) := hs.mem_bin_iff.mpr ⟨rfl, u, hum, huf, rfl⟩
  constructor
  · by_contra hlt
    have := hbefore (sizeToBinIndex u.size) (u.addr, u.size) hbin (Nat.not_le.mp hlt) hmem
    dsimp only at this
    omega
  · intro he
    rw [he] at hmem
    exact find?_smallest (hsort _) hfind (u.addr, u.size) hmem hule

theorem Heap.exists_smallest (ht : h.Adequate n t) : ∃ u, h.Smallest n u := by
  obtain ⟨u, hu, hmin⟩ := (measure Tile.size).wf.has_min {u | h.Adequate n u} ⟨t, ht⟩
  exact ⟨u, hu, fun v hv => Nat.not_lt.mp (hmin v hv)⟩

theorem Arena.BestFit.of_allocate {ptr size : Nat} {s' : Arena} (ha : s.allocate n = some ((ptr, size), s')) :
    s.BestFit h n ↔ (ptr = 0 → ∀ t, ¬ h.Adequate n t) ∧ (ptr ≠ 0 → ∃ t, h.Smallest n t ∧ t.addr + 8 = ptr) := by
  constructor
  · rintro ⟨ptr', size', s'', ha', hcases⟩
    rw [ha] at ha'
    obtain ⟨hp, _⟩ := Prod.mk.inj (Option.some.inj ha')
    obtain ⟨rfl, _⟩ := Prod.mk.inj hp
    exact hcases
  · intro hcases
    exact ⟨ptr, size, s', ha, hcases⟩

/-- A failing call is right only if there is nothing to give. -/
theorem bestFit_fail {s' : Arena} (ha : s.allocate n = some ((0, 0), s')) :
    s.BestFit h n ↔ ∀ t, ¬ h.Adequate n t := by
  rw [Arena.BestFit.of_allocate ha]
  simp

theorem inFirstBin_of_none (hnone : ∀ t, ¬ h.Adequate n t) : h.InFirstBin n :=
  fun t ht => absurd ht.1 (hnone t)

theorem bestFit_iff (hs : Holds gap s h) (hq : Quiet h.tiles) (hsort : h.Sorted) (hn : n < 2 ^ 64)
    (hbig : userSizeToChunkSize n < largestBin) :
    s.BestFit h n ↔ (n = 0 → ∀ t, ¬ h.Adequate n t) ∧ h.InFirstBin n := by
  by_cases hn0 : n = 0
  · obtain ⟨s', ha, _⟩ := allocate_fail hs (.inl hn0)
    rw [bestFit_fail ha]
    exact ⟨fun hnone => ⟨fun _ => hnone, inFirstBin_of_none hnone⟩, fun hcond => hcond.1 hn0⟩
  have hzero : (n = 0 → ∀ t, ¬ h.Adequate n t) ↔ True := by simp [hn0]
  rw [hzero, true_and]
  cases hf : h.search n with
  | none =>
      obtain ⟨s', ha, _⟩ := allocate_fail hs (.inr (.inr hf))
      rw [bestFit_fail ha]
      refine ⟨inFirstBin_of_none, fun hfirst t ht => ?_⟩
      obtain ⟨u, hu⟩ := h.exists_smallest ht
      have := search_none hs hf u hu.1
      have := (hfirst u hu).1
      omega
  | some x =>
      obtain ⟨s', h', size, ha, _⟩ := allocate_found hs hq hn0 hn hbig hf
      obtain ⟨t, hta, rfl, hbin, hfirst⟩ := search_some hs hsort hf
      have hptr : t.addr + 8 ≠ 0 := Nat.succ_ne_zero _
      have hsmallest : s.BestFit h n ↔ h.Smallest n t := by
        rw [Arena.BestFit.of_allocate ha]
        constructor
        · rintro ⟨_, hex⟩
          obtain ⟨u, hu, hua⟩ := hex hptr
          obtain rfl : u = t := hs.image.addr_inj (by simpa using hu.1.1) (by simpa using hta.1) (by
            dsimp only at hua
            omega)
          exact hu
        · exact fun ht => ⟨fun h0 => absurd h0 hptr, fun _ => ⟨t, ht, rfl⟩⟩
      rw [hsmallest]
      constructor
      · intro ht u hu
        have he : u.size = t.size := Nat.le_antisymm (hu.2 t ht.1) (ht.2 u hu.1)
        rw [he]
        exact ⟨hbin, fun v hv hvbin => (hfirst v hv hvbin).1⟩
      · intro hcond
        obtain ⟨u, hu⟩ := h.exists_smallest hta
        obtain ⟨hubin, hule⟩ := hcond u hu
        obtain ⟨h1, h2⟩ := hfirst u hu.1 hubin
        have hle := h2 (Nat.le_antisymm (hule t hta hbin) h1)
        exact ⟨hta, fun v hv => hle.trans (hu.2 v hv)⟩

/-- In every state that calls of `allocate` and `free` lead to, a request is
served as it should be exactly when a smallest chunk that is big enough stands
in the first bin of the search that has any; and a request for nothing, which is
never served, when there is nothing. -/
theorem allocate_best_fit_iff {cs : List Call} {σ : Session} (hs : s.Initial)
    (hr : Execution Session.step Session.AllocateFree ⟨s, []⟩ cs σ) (hn : n < 2 ^ 64)
    (hbig : userSizeToChunkSize n < largestBin) :
    ∃ h : Heap, h.Valid ∧ σ.arena.Stores h ∧
      (σ.arena.BestFit h n ↔ (n = 0 → ∀ t, ¬ h.Adequate n t) ∧ h.InFirstBin n) := by
  obtain ⟨gap, _, h, ⟨hh, hq, _, _⟩, hsort, _⟩ := Session.run_invariant hs hr
  exact ⟨h, hh.valid, hh.stores, bestFit_iff hh hq hsort hn hbig⟩

theorem allocate_best_fit_iff_fresh : ∃ (s : Arena) (h : Heap), h.Valid ∧ s.Stores h ∧
    (s.BestFit h 100 ↔ (100 = 0 → ∀ t, ¬ h.Adequate 100 t) ∧ h.InFirstBin 100) := by
  obtain ⟨s, _, hinit, _⟩ := Session.oneFree_initial
  exact ⟨s, allocate_best_fit_iff hinit .nil (by decide) (by decide)⟩

/-- A free chunk of 976 bytes stands in bin 30, and a request of 632 bytes is
looked for from bin 32 on. -/
theorem allocate_not_best_fit :
    ¬ ∀ (s : Arena) (cs : List Call) (σ : Session) (n : Nat), s.Initial →
      Execution Session.step Session.AllocateFree ⟨s, []⟩ cs σ → n < 2 ^ 64 → userSizeToChunkSize n < largestBin →
      ∃ h : Heap, h.Valid ∧ σ.arena.Stores h ∧ σ.arena.BestFit h n := by
  intro hall
  obtain ⟨s, h, hinit, hb, hv, hs⟩ := Session.oneFree_initial
  obtain ⟨h', hv', hs', hfit⟩ := hall s [] ⟨s, []⟩ 632 hinit .nil (by decide) (by decide)
  have htiles : h'.tiles = [⟨4120, 976, true, false, true⟩] := by
    rw [Heap.tiles, hs'.unique hs hv' hv, hb]
    rfl
  have hneed : userSizeToChunkSize 632 = 640 := by decide
  have hadequate : h'.Adequate 632 ⟨4120, 976, true, false, true⟩ :=
    ⟨by rw [htiles]; simp, rfl, by rw [hneed]; decide⟩
  have hnone : h'.search 632 = none := by
    rw [← Option.not_isSome_iff_eq_none, Option.isSome_iff_exists]
    rintro ⟨x, hx⟩
    rw [Heap.search, hneed] at hx
    obtain ⟨_, j, hj, _, hfind, _⟩ := firstFit_some hx
    obtain ⟨rfl, t, ht, _, rfl⟩ := (hs'.holds hv').mem_bin_iff.mp (List.mem_of_find?_eq_some hfind)
    rw [htiles] at ht
    obtain rfl := List.mem_singleton.mp ht
    exact absurd hj (by decide)
  obtain ⟨s', ha, _⟩ := allocate_fail (hs'.holds hv') (.inr (.inr hnone))
  exact (bestFit_fail ha).mp hfit _ hadequate

end XviOs.Allocator
