import XviOs.Allocator.Tile

namespace XviOs.Allocator

open Library.LittleEndian Chunk Tile

variable {m m' m'' : Mem} {t u d : Tile} {post : List Tile} {lo hi lo' hi' : Nat}

theorem Effect.trans (h : Effect lo hi post m m') (h' : Effect lo hi post m' m'') : Effect lo hi post m m'' :=
  fun a b h1 h2 => (h a b h1 h2).trans (h' a b h1 h2)

theorem write64_effect {a v : Nat} (h : lo ≤ a ∧ a + 8 ≤ hi) : Effect lo hi post m (write64 m a v) :=
  fun _ _ ho _ => write64_eqOn m a v (by omega)

theorem put_effect (ht : lo ≤ t.addr ∧ t.addr + 8 ≤ hi) : Effect lo hi post m (t.put m) :=
  fun _ _ h _ => t.put_eqOn m (by omega)

theorem put_next_effect (hp : post ≠ []) (hd : d.addr = hi) : Effect lo hi post m (d.put m) :=
  fun _ _ _ h => d.put_eqOn m (by rcases h with h | h | h <;> [exact absurd h hp; omega; omega])

theorem putFooter_effect (ht : lo ≤ t.stop - 8 ∧ t.stop - 8 + 8 ≤ hi) : Effect lo hi post m (t.putFooter m) :=
  fun _ _ h _ => t.putFooter_eqOn m (by omega)

/-- Telling the follower, if there is one, that its predecessor is free or not. -/
def tell (f : Bool) : List Tile → Mem → Mem
  | [], m => m
  | d :: _, m => { d with predFree := f }.put m

theorem tell_effect (f : Bool) (hd : ∀ d ∈ post.head?, d.addr = hi) : Effect lo hi post m (tell f post m) := by
  cases post with
  | nil => exact fun a b _ _ => EqOn.refl m a b
  | cons d post => exact put_next_effect (by simp) (hd d (by simp))

theorem tell_in (f : Bool) (h : ∀ d ∈ post.head?, d.In m) :
    ∀ d ∈ (setPredFree f post).head?, d.In (tell f post m) := by
  cases post with
  | nil => simp [setPredFree]
  | cons d post =>
      have hd := h d (by simp)
      intro e he
      obtain rfl : { d with predFree := f } = e := by simpa [setPredFree] using he
      exact put_in hd.size_mod hd.size_lt

/-- A header of the same chunk with other flags leaves the follower in place. -/
theorem Followed.put (hf : Followed m t post) (u : Tile) (ha : u.addr = t.addr) (hs : u.size = t.size)
    (hl : u.last = t.last) (h8 : 8 ≤ t.size) : Followed (u.put m) u post := by
  refine ⟨hl.trans hf.last, fun d hd => ?_⟩
  obtain ⟨hin, hda⟩ := hf.next d hd
  have hstop : u.stop = t.stop := by rw [stop, stop, ha, hs]
  refine ⟨hin.put_of_disjoint ?_, by rw [hda, hstop]⟩
  rw [hda, ha, stop]
  omega

theorem tell_free_eq (h : t.In m) (hf : Followed m t post) :
    (if isLast m t.addr then m else markPredecessorFree m (successor m t.addr)) = tell true post m := by
  rw [h.isLast_eq, h.successor_eq, hf.last]
  cases post with
  | nil => rfl
  | cons d post =>
      obtain ⟨hd, ha⟩ := hf.next d (by simp)
      simp only [List.isEmpty_cons, Bool.false_eq_true, if_false, ← ha]
      exact hd.markPredecessorFree_eq

theorem tell_not_free_eq (h : t.In m) (hf : Followed m t post) :
    (if isLast m t.addr then m else markPredecessorNotFree m (successor m t.addr)) = tell false post m := by
  rw [h.isLast_eq, h.successor_eq, hf.last]
  cases post with
  | nil => rfl
  | cons d post =>
      obtain ⟨hd, ha⟩ := hf.next d (by simp)
      simp only [List.isEmpty_cons, Bool.false_eq_true, if_false, ← ha]
      exact hd.markPredecessorNotFree_eq

theorem markFree_eq (h : t.In m) (hf : Followed m t post) (hs : 8 ≤ t.size) :
    markFree m t.addr = tell true post ({ t with free := true }.put m) := by
  have hin : { t with free := true }.In ({ t with free := true }.put m) := put_in h.size_mod h.size_lt
  simp only [markFree, h.setFree_eq]
  exact @tell_free_eq _ { t with free := true } post hin (hf.put _ rfl rfl rfl hs)

theorem markNotFree_eq (h : t.In m) (hf : Followed m t post) (hs : 8 ≤ t.size) :
    markNotFree m t.addr = tell false post ({ t with free := false }.put m) := by
  have hin : { t with free := false }.In ({ t with free := false }.put m) := put_in h.size_mod h.size_lt
  simp only [markNotFree, h.setNotFree_eq]
  exact @tell_not_free_eq _ { t with free := false } post hin (hf.put _ rfl rfl rfl hs)

theorem Tile.In.after_tell (h : t.In m) (f : Bool) (hd : ∀ d ∈ post.head?, t.addr + 8 ≤ d.addr) :
    t.In (tell f post m) := by
  cases post with
  | nil => exact h
  | cons d post => exact h.put_of_disjoint (.inr (hd d (by simp)))

/-- Setting the `Free` flag of a chunk and telling the follower. -/
theorem mark_spec (f : Bool) (h : t.In m) (hf : Followed m t post) (hs : 8 ≤ t.size) :
    { t with free := f }.In (tell f post ({ t with free := f }.put m)) ∧
      (∀ d ∈ (setPredFree f post).head?, d.In (tell f post ({ t with free := f }.put m))) ∧
      Effect t.addr t.stop post m (tell f post ({ t with free := f }.put m)) := by
  have hin : { t with free := f }.In ({ t with free := f }.put m) := put_in h.size_mod h.size_lt
  have hf₁ : Followed ({ t with free := f }.put m) { t with free := f } post := hf.put _ rfl rfl rfl hs
  have hpost : ∀ d ∈ post.head?, d.addr = t.stop := fun d hd => (hf.next d hd).2
  have hend : t.stop = t.addr + t.size := rfl
  refine ⟨hin.after_tell f fun d hd => ?_, tell_in f fun d hd => (hf₁.next d hd).1, ?_⟩
  · rw [hpost d hd]
    dsimp only
    omega
  · have h₁ : Effect t.addr t.stop post m ({ t with free := f }.put m) := put_effect (by dsimp only; omega)
    exact h₁.trans (tell_effect f hpost)

/-- `mergeWithSuccessor` on a chunk whose successor is free. -/
theorem mergeWithSuccessor_eq (h : t.In m) (hf : Followed m t (d :: post)) (hd : d.free = true)
    (hlt : t.size + d.size < 2 ^ 64) :
    mergeWithSuccessor m t.addr = { t with size := t.size + d.size, last := d.last }.put m := by
  obtain ⟨hdin, ha⟩ := hf.next d (by simp)
  have hl : t.last = false := by simpa using hf.last
  have hsum : (t.size + d.size) % 8 = 0 := by
    have := h.size_mod
    have := hdin.size_mod
    omega
  have hsucc : successor m t.addr = d.addr := by rw [h.successor_eq, hl, ha]; simp
  have hmerged : { t with size := t.size + d.size }.In ({ t with size := t.size + d.size }.put m) :=
    put_in hsum hlt
  simp only [mergeWithSuccessor, h.isLast_eq, hl, hsucc, hdin.isFree_eq, hd, hdin.isLast_eq, h.size_eq,
    hdin.size_eq, h.setSize_eq hsum, Bool.not_true, Bool.or_self, Bool.false_eq_true, if_false]
  cases hdl : d.last with
  | false => rw [if_neg (by decide)]
  | true =>
      rw [if_pos rfl]
      rw [hl] at hmerged
      exact hmerged.markLast_eq.trans (put_put rfl)

theorem isEmpty_setPredFree (f : Bool) (post : List Tile) : (setPredFree f post).isEmpty = post.isEmpty := by
  cases post <;> rfl

theorem tell_self {f : Bool} (h : ∀ d ∈ post.head?, d.In m ∧ d.predFree = f) : tell f post m = m := by
  cases post with
  | nil => rfl
  | cons d post =>
      obtain ⟨hd, rfl⟩ := h d (by simp)
      exact hd.put_self

theorem Followed.after_tell (hf : Followed m t post) (f : Bool) :
    Followed (tell f post m) t (setPredFree f post) := by
  refine ⟨by rw [isEmpty_setPredFree]; exact hf.last, fun d hd => ⟨?_, ?_⟩⟩
  · exact tell_in f (fun e he => (hf.next e he).1) d hd
  · cases post with
    | nil => simp [setPredFree] at hd
    | cons e post =>
        obtain rfl : { e with predFree := f } = d := by simpa [setPredFree] using hd
        exact (hf.next e (by simp)).2

theorem Followed.congr (hf : Followed m t post) (he : EqOn m m' t.stop (t.stop + 8)) : Followed m' t post := by
  refine ⟨hf.last, fun d hd => ?_⟩
  obtain ⟨hin, ha⟩ := hf.next d hd
  exact ⟨hin.congr (by rw [ha]; exact he), ha⟩

/-- `doFree` marks the chunk free, writes its footer and tells the follower. -/
theorem doFree_eq (h : t.In m) (hf : Followed m t post) (hs : 16 ≤ t.size) :
    doFree m t.addr =
      { t with free := true }.putFooter (tell true post ({ t with free := true }.put m)) := by
  obtain ⟨t', ht'⟩ : ∃ t' : Tile, t' = { t with free := true } := ⟨_, rfl⟩
  have haddr : t'.addr = t.addr := by rw [ht']
  have hsize : t'.size = t.size := by rw [ht']
  have hlast : t'.last = t.last := by rw [ht']
  have hstop : t'.stop = t.stop := by rw [stop, stop, haddr, hsize]
  have hin₁ : t'.In (t'.put m) := put_in (by rw [hsize]; exact h.size_mod) (by rw [hsize]; exact h.size_lt)
  have hf₁ : Followed (t'.put m) t' post := hf.put t' haddr hsize hlast (by omega)
  have hin₂ : t'.In (tell true post (t'.put m)) := hin₁.after_tell true fun d hd => by
    rw [(hf₁.next d hd).2, stop]
    omega
  have hf₂ := hf₁.after_tell true
  obtain ⟨m₂, hm₂⟩ : ∃ m₂, m₂ = tell true post (t'.put m) := ⟨_, rfl⟩
  rw [← hm₂] at hin₂ hf₂
  have hin₃ : t'.In (t'.putFooter m₂) := hin₂.putFooter_of_disjoint (by rw [stop]; omega)
  have hf₃ : Followed (t'.putFooter m₂) t' (setPredFree true post) :=
    hf₂.congr (t'.putFooter_eqOn m₂ (by rw [stop]; omega))
  have hfree : markFree m t.addr = m₂ := by rw [markFree_eq h hf (by omega), hm₂, ht']
  rw [← ht', ← hm₂]
  simp only [doFree, hfree]
  rw [← haddr, hin₂.footer_eq, hin₂.size_eq]
  refine (tell_free_eq hin₃ hf₃).trans (tell_self fun d hd => ⟨(hf₃.next d hd).1, ?_⟩)
  cases post with
  | nil => simp [setPredFree] at hd
  | cons e post =>
      obtain rfl : { e with predFree := true } = d := by simpa [setPredFree] using hd
      rfl

/-- What `doFree` leaves behind, as far as the chunk and its follower go. -/
theorem doFree_spec (h : t.In m) (hf : Followed m t post) (hs : 16 ≤ t.size) :
    { t with free := true }.In (doFree m t.addr) ∧ { t with free := true }.Footed (doFree m t.addr) ∧
      (∀ d ∈ (setPredFree true post).head?, d.In (doFree m t.addr)) ∧
      Effect t.addr t.stop post m (doFree m t.addr) := by
  obtain ⟨t', ht'⟩ : ∃ t' : Tile, t' = { t with free := true } := ⟨_, rfl⟩
  have haddr : t'.addr = t.addr := by rw [ht']
  have hsize : t'.size = t.size := by rw [ht']
  have hlast : t'.last = t.last := by rw [ht']
  have hstop : t'.stop = t.stop := by rw [stop, stop, haddr, hsize]
  have hend : t.stop = t.addr + t.size := rfl
  rw [doFree_eq h hf hs, ← ht']
  have hin₁ : t'.In (t'.put m) := put_in (by rw [hsize]; exact h.size_mod) (by rw [hsize]; exact h.size_lt)
  have hf₁ : Followed (t'.put m) t' post := hf.put t' haddr hsize hlast (by omega)
  have hpost : ∀ d ∈ post.head?, d.addr = t.stop := fun d hd => (hf.next d hd).2
  have hin₂ : t'.In (tell true post (t'.put m)) := hin₁.after_tell true fun d hd => by
    rw [hpost d hd]
    omega
  have hf₂ := hf₁.after_tell true
  refine ⟨hin₂.putFooter_of_disjoint (by omega), putFooter_footed (by rw [hsize]; exact h.size_lt), ?_, ?_⟩
  · intro d hd
    refine (hf₂.next d hd).1.putFooter_of_disjoint ?_
    rw [(hf₂.next d hd).2]
    omega
  · have h₁ : Effect t.addr t.stop post m (t'.put m) := put_effect (by omega)
    have h₂ : Effect t.addr t.stop post (t'.put m) (tell true post (t'.put m)) := tell_effect true hpost
    exact (h₁.trans h₂).trans (putFooter_effect (by omega))

theorem setPredFree_addr {f : Bool} {a : Nat} (h : ∀ d ∈ post.head?, d.addr = a) :
    ∀ d ∈ (setPredFree f post).head?, d.addr = a := by
  cases post with
  | nil => simp [setPredFree]
  | cons e post =>
      intro d hd
      obtain rfl : { e with predFree := f } = d := by simpa [setPredFree] using hd
      exact h e (by simp)

section Split

variable {n k : Nat}

theorem splitHeader_spec (h : t.In m) (hf : Followed m t post) (hsize : t.size = n + k)
    (hn : 32 ≤ n) (hn8 : n % 8 = 0) (hk : 32 ≤ k) :
    (Tile.mk (t.addr + n) k false false t.last).In (splitHeader m t.addr n) ∧
      { t with last := false }.In (splitHeader m t.addr n) ∧
      Followed (splitHeader m t.addr n) (Tile.mk (t.addr + n) k false false t.last) post ∧
      Effect t.addr t.stop post m (splitHeader m t.addr n) := by
  have hend : t.stop = t.addr + n + k := by rw [stop, hsize, Nat.add_assoc]
  have hmod := h.size_mod
  have hlt := h.size_lt
  obtain ⟨m₁, hm₁⟩ : ∃ m₁, m₁ = setNext (setPrev m (t.addr + n) 0) (t.addr + n) 0 := ⟨_, rfl⟩
  have heff₁ : Effect t.addr t.stop post m m₁ := by
    rw [hm₁]
    exact (write64_effect (by omega)).trans (write64_effect (by omega))
  have heq₁ {a b : Nat} (hab : b ≤ t.addr + n + 8 ∨ t.stop ≤ a) : EqOn m m₁ a b := by
    rw [hm₁]
    exact (write64_eqOn _ _ _ (by omega)).trans (write64_eqOn _ _ _ (by omega))
  have hin₁ : t.In m₁ := h.congr (heq₁ (by omega))
  have hf₁ : Followed m₁ t post := hf.congr (heq₁ (by omega))
  obtain ⟨r, hr⟩ : ∃ r, r = Tile.mk (t.addr + n) k false false false := ⟨_, rfl⟩
  have hra : r.addr = t.addr + n := by rw [hr]
  have hrs : r.size = k := by rw [hr]
  have hset : setSizeAndFlags m₁ (t.addr + n) (t.size - n) 0 = r.put m₁ := by
    have hk' : t.size - n = k := by omega
    rw [← setSizeAndFlags_eq (by rw [hrs]; omega), hk', hr]
    rfl
  have hin₂ : t.In (r.put m₁) := hin₁.put_of_disjoint (by omega)
  have hf₂ : Followed (r.put m₁) t post := hf₁.congr (r.put_eqOn m₁ (by omega))
  have hr₂ : r.In (r.put m₁) := put_in (by omega) (by omega)
  have heff₂ : Effect t.addr t.stop post m (r.put m₁) := heff₁.trans (put_effect (by omega))
  -- the remaining chunk ends where the chunk did
  have hfollow {m' : Mem} (h : Followed m' t post) :
      Followed m' (Tile.mk (t.addr + n) k false false t.last) post :=
    ⟨h.last, fun d hd => ⟨(h.next d hd).1, (h.next d hd).2.trans hend⟩⟩
  simp only [splitHeader, h.size_eq, ← hm₁, hset, hin₂.isLast_eq]
  cases hl : t.last with
  | false =>
      have hc : { t with last := false } = t := by rw [← hl]
      rw [if_neg (by decide), hc, ← hr]
      have hf := hfollow hf₂
      rw [hl, ← hr] at hf
      exact ⟨hr₂, hin₂, hf, heff₂⟩
  | true =>
      obtain ⟨r', hr'⟩ : ∃ r' : Tile, r' = { r with last := true } := ⟨_, rfl⟩
      obtain ⟨c, hc⟩ : ∃ c : Tile, c = { t with last := false } := ⟨_, rfl⟩
      have hr'a : r'.addr = t.addr + n := by rw [hr', hr]
      have hr's : r'.size = k := by rw [hr', hr]
      have hca : c.addr = t.addr := by rw [hc]
      have hmark : markLast (r.put m₁) (t.addr + n) = r'.put (r.put m₁) := by
        rw [← hra, hr₂.markLast_eq, hr']
      have hcin : t.In (r'.put (r.put m₁)) := hin₂.put_of_disjoint (by omega)
      have hrin : r'.In (r'.put (r.put m₁)) := put_in (by omega) (by omega)
      have hr'mk : Tile.mk (t.addr + n) k false false true = r' := by rw [hr', hr]
      rw [if_pos rfl, hmark, hcin.markNotLast_eq, ← hc, hr'mk]
      refine ⟨hrin.put_of_disjoint (by omega), put_in (by rw [hc]; exact hmod) (by rw [hc]; exact hlt), ?_, ?_⟩
      · have hf₃ : Followed (r'.put (r.put m₁)) t post := hf₂.congr (r'.put_eqOn _ (by omega))
        have hf₄ : Followed (c.put (r'.put (r.put m₁))) t post := hf₃.congr (c.put_eqOn _ (by omega))
        have hf₅ := hfollow hf₄
        rw [hl, hr'mk] at hf₅
        exact hf₅
      · exact (heff₂.trans (put_effect (by omega))).trans (put_effect (by omega))

/-- `split` keeps the first `n` bytes for the chunk and makes a free chunk of
the rest, which inherits the `Last` flag. -/
theorem split_spec (h : t.In m) (hf : Followed m t post) (hsize : t.size = n + k)
    (hn : 32 ≤ n) (hn8 : n % 8 = 0) (hk : 32 ≤ k) :
    { t with size := n, last := false }.In (split m t.addr n).1 ∧
      (t.free = true → { t with size := n, last := false }.Footed (split m t.addr n).1) ∧
      (Tile.mk (t.addr + n) k true t.free t.last).In (split m t.addr n).1 ∧
      (Tile.mk (t.addr + n) k true t.free t.last).Footed (split m t.addr n).1 ∧
      (∀ d ∈ (setPredFree true post).head?, d.In (split m t.addr n).1) ∧
      Effect t.addr t.stop post m (split m t.addr n).1 := by
  have hend : t.stop = t.addr + n + k := by rw [stop, hsize, Nat.add_assoc]
  have hlt := h.size_lt
  have hpost : ∀ d ∈ (setPredFree true post).head?, d.addr = t.stop :=
    setPredFree_addr fun d hd => (hf.next d hd).2
  obtain ⟨hr₁, hc₁, hf₁, heff₁⟩ := splitHeader_spec h hf hsize hn hn8 hk
  -- the remaining chunk is freed
  obtain ⟨hr₂, hfoot₂, hd₂, heff₂⟩ := doFree_spec hr₁ hf₁ (show 16 ≤ k by omega)
  obtain ⟨m₂, hm₂⟩ : ∃ m₂, m₂ = doFree (splitHeader m t.addr n) (t.addr + n) := ⟨_, rfl⟩
  obtain ⟨r, hr⟩ : ∃ r, r = Tile.mk (t.addr + n) k true false t.last := ⟨_, rfl⟩
  have hra : r.addr = t.addr + n := by rw [hr]
  have hrstop : r.stop = t.stop := by rw [hr, hend]; rfl
  have hstop₁ : (Tile.mk (t.addr + n) k false false t.last).stop = t.stop := hend.symm
  rw [← hm₂] at hr₂ hfoot₂ hd₂ heff₂
  rw [hstop₁] at heff₂
  rw [← hr] at hr₂ hfoot₂
  dsimp only at heff₂
  have hc₂ : { t with last := false }.In m₂ := hc₁.congr (heff₂ _ _ (by dsimp only; omega) (by dsimp only; omega))
  -- the chunk gets its new size
  obtain ⟨c, hc⟩ : ∃ c : Tile, c = { t with size := n, last := false } := ⟨_, rfl⟩
  have hca : c.addr = t.addr := by rw [hc]
  have hcs : c.size = n := by rw [hc]
  have hcstop : c.stop = t.addr + n := by rw [stop, hca, hcs]
  have hset : setSize m₂ t.addr n = c.put m₂ := by
    rw [hc]
    exact hc₂.setSize_eq hn8
  have hc₃ : c.In (c.put m₂) := put_in (by omega) (by omega)
  have hr₃ : r.In (c.put m₂) := hr₂.put_of_disjoint (by omega)
  have hfoot₃ : r.Footed (c.put m₂) := hfoot₂.put_of_disjoint (by omega)
  have hd₃ : ∀ d ∈ (setPredFree true post).head?, d.In (c.put m₂) := fun d hd => by
    have := hpost d hd
    exact (hd₂ d hd).put_of_disjoint (by omega)
  have heff₃ : Effect t.addr t.stop post m (c.put m₂) :=
    (heff₁.trans fun a b ho hp => heff₂ a b (by omega) hp).trans (put_effect (by omega))
  have hf₃ : Followed (c.put m₂) c [r] :=
    ⟨by rw [hc]; rfl, fun d hd => by
      obtain rfl : r = d := by simpa using hd
      exact ⟨hr₃, by rw [hra, hcstop]⟩⟩
  have hsplit : (split m t.addr n).1 = if isFree (c.put m₂) t.addr then doFree (c.put m₂) t.addr else c.put m₂ := by
    simp only [split, ← hm₂, hset]
  have hrp (f : Bool) : Tile.mk (t.addr + n) k true f t.last = { r with predFree := f } := by rw [hr]
  rw [hsplit, hrp, ← hc, ← hca, hc₃.isFree_eq, show t.free = c.free by rw [hc]]
  cases hfree : c.free with
  | false =>
      have hsame : { r with predFree := false } = r := by rw [hr]
      rw [if_neg (by decide), hsame, hca]
      exact ⟨hc₃, by simp, hr₃, hfoot₃, hd₃, heff₃⟩
  | true =>
      have hcf : { c with free := true } = c := by rw [← hfree]
      obtain ⟨hc₄, hcfoot₄, hr₄, heff₄⟩ := doFree_spec hc₃ hf₃ (by omega)
      rw [hcf] at hc₄ hcfoot₄
      have heq₄ {a b : Nat} (ho : b ≤ t.addr ∨ t.addr + n + 8 ≤ a) :
          EqOn (c.put m₂) (doFree (c.put m₂) c.addr) a b :=
        heff₄ a b (by omega) (by omega)
      rw [if_pos rfl]
      refine ⟨hc₄, fun _ => hcfoot₄, hr₄ _ (by simp [setPredFree]), hfoot₃.congr (heq₄ (by omega)), ?_, ?_⟩
      · intro d hd
        have := hpost d hd
        exact (hd₃ d hd).congr (heq₄ (by omega))
      · rw [hca]
        rw [hca] at heff₄
        exact heff₃.trans fun a b ho hp => heff₄ a b (by omega) (by omega)

theorem setFlags_eqOn (m : Mem) (c flags : Nat) {lo hi : Nat} (h : hi ≤ c ∨ c + 8 ≤ lo) :
    EqOn m (setFlags m c flags) lo hi :=
  write64_eqOn m c _ h

/-- Splitting a chunk in use leaves the contents of what it keeps as they are. -/
theorem split_keeps (h : t.In m) (hf : Followed m t post) (hsize : t.size = n + k) (hn : 32 ≤ n) (hn8 : n % 8 = 0)
    (hk : 32 ≤ k) (ht : t.free = false) : EqOn m (split m t.addr n).1 (t.addr + 8) (t.addr + n) := by
  obtain ⟨hr₁, hc₁, hf₁, -⟩ := splitHeader_spec h hf hsize hn hn8 hk
  obtain ⟨-, -, -, heff₂⟩ := doFree_spec hr₁ hf₁ (show 16 ≤ k by omega)
  have hheader : EqOn m (splitHeader m t.addr n) (t.addr + 8) (t.addr + n) := by
    have hnew : EqOn m (setSizeAndFlags (setNext (setPrev m (t.addr + n) 0) (t.addr + n) 0) (t.addr + n)
        (size m t.addr - n) 0) (t.addr + 8) (t.addr + n) :=
      ((write64_eqOn _ _ _ (by omega)).trans (write64_eqOn _ _ _ (by omega))).trans (write64_eqOn _ _ _ (by omega))
    rw [splitHeader]
    split
    · exact (hnew.trans (setFlags_eqOn _ _ _ (by omega))).trans (setFlags_eqOn _ _ _ (by omega))
    · exact hnew
  have hfree : EqOn (splitHeader m t.addr n) (doFree (splitHeader m t.addr n) (t.addr + n)) (t.addr + 8)
      (t.addr + n) :=
    heff₂ _ _ (.inl (Nat.le_refl _)) (.inr (.inl (Nat.le_add_right _ _)))
  have hlive : isFree (setSize (doFree (splitHeader m t.addr n) (t.addr + n)) t.addr n) t.addr = false := by
    have hlt := h.size_lt
    have hc₂ := hc₁.congr (heff₂ _ _ (.inl (by dsimp only; omega)) (.inr (.inl (by dsimp only [stop]; omega))))
    have hset := hc₂.setSize_eq hn8
    dsimp only at hset
    have hin : { t with size := n, last := false }.In
        ({ t with size := n, last := false }.put (doFree (splitHeader m t.addr n) (t.addr + n))) :=
      put_in hn8 (by dsimp only; omega)
    rw [hset]
    exact hin.isFree_eq.trans ht
  simp only [split, hlive]
  exact (hheader.trans hfree).trans (write64_eqOn _ _ _ (by omega))

end Split

end XviOs.Allocator
