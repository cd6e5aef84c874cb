import XviOs.Library.Runs
import XviOs.Igniter.PageBitmap

namespace XviOs.Igniter.PageBitmap

open Library.Bitmap Library.Runs

section Cover

variable (s : PageBitmap) (base size : BitVec 64) (k : Nat)

def address : Nat := s.baseAddress.toNat + k * 4096

def pageBytes : Set Nat := Set.Ico (s.address k) (s.address k + 4096)

def rangeBytes : Set Nat := Set.Ico base.toNat (base.toNat + size.toNat)

/-- Pages that lie in a range become available, and pages of which a part does become unavailable. -/
def Covered (available : Bool) : Prop :=
  if available then s.pageBytes k ⊆ rangeBytes base size else (s.pageBytes k ∩ rangeBytes base size).Nonempty

def Misses : Prop :=
  base.toNat + size.toNat ≤ s.baseAddress.toNat ∨ s.baseAddress.toNat + s.bits * 4096 ≤ base.toNat

/-- Rounding up does not pass the top of the address space; the range misses the window, or the window starts at the
address zero and the range does not pass the top either. -/
structure RangeOk (available : Bool) : Prop where
  round : available = true → base.toNat + 4095 < 2 ^ 64
  reach : s.Misses base size ∨ (s.baseAddress = 0 ∧ base.toNat + size.toNat < 2 ^ 64)

variable {s base size k} {available : Bool}

theorem pageBytes_subset_iff :
    s.pageBytes k ⊆ rangeBytes base size ↔
      base.toNat ≤ s.address k ∧ s.address k + 4096 ≤ base.toNat + size.toNat :=
  Set.Ico_subset_Ico_iff (Nat.lt_add_of_pos_right (by decide))

theorem pageBytes_inter_iff :
    (s.pageBytes k ∩ rangeBytes base size).Nonempty ↔
      0 < size.toNat ∧ base.toNat < s.address k + 4096 ∧ s.address k < base.toNat + size.toNat := by
  rw [pageBytes, rangeBytes, Set.Ico_inter_Ico, Set.nonempty_Ico, sup_lt_iff, lt_inf_iff, lt_inf_iff]
  omega

theorem not_covered_of_misses (h : s.Misses base size) (hk : k < s.bits) : ¬ s.Covered base size k available := by
  have haddress : s.address k = s.baseAddress.toNat + k * 4096 := rfl
  rw [Misses] at h
  cases available with
  | true =>
    rw [Covered, if_pos rfl, pageBytes_subset_iff]
    omega
  | false =>
    rw [Covered, if_neg Bool.false_ne_true, pageBytes_inter_iff]
    omega

theorem covered_iff_of_zero (hzero : s.baseAddress = 0) (hsize : size ≠ 0) (hk : k < s.bits) :
    s.Covered base size k available ↔
      firstPage available base.toNat ≤ k ∧
        k < lastPage available (min (base.toNat + size.toNat) (s.bits * 4096)) := by
  have hpos : 0 < size.toNat := Nat.pos_of_ne_zero fun h => hsize (BitVec.eq_of_toNat_eq h)
  have haddress : s.address k = k * 4096 := by
    rw [address, hzero]
    exact Nat.zero_add _
  cases available with
  | true =>
    rw [Covered, if_pos rfl, pageBytes_subset_iff, firstPage, if_pos rfl, lastPage, if_pos rfl]
    omega
  | false =>
    rw [Covered, if_neg Bool.false_ne_true, pageBytes_inter_iff, firstPage, if_neg Bool.false_ne_true, lastPage,
      if_neg Bool.false_ne_true]
    omega

theorem not_covered_of_empty : ¬ s.Covered base 0 k available := by
  have hzero : (0 : BitVec 64).toNat = 0 := rfl
  cases available with
  | true =>
    rw [Covered, if_pos rfl, pageBytes_subset_iff, hzero]
    omega
  | false =>
    rw [Covered, if_neg Bool.false_ne_true, pageBytes_inter_iff, hzero]
    omega

theorem markRange_spec (h : s.RangeOk base size available) :
    ∃ s', s.markRange base size available = some s' ∧ SameWindow s s' ∧
      ∀ k < s.bits, (s.Covered base size k available → bit s'.sets k = available) ∧
        (¬ s.Covered base size k available → bit s'.sets k = bit s.sets k) := by
  by_cases hmiss : s.Misses base size
  · refine ⟨s, markRange_missed h.round hmiss, ⟨rfl, rfl⟩, ?_⟩
    intro k hk
    exact ⟨fun hcovered => absurd hcovered (not_covered_of_misses hmiss hk), fun _ => rfl⟩
  · obtain ⟨hzero, hsum⟩ := h.reach.resolve_left hmiss
    obtain ⟨z, hadjust, hend⟩ := adjust_of_zero hzero hsum
    have hbelow : base.toNat < s.bits * 4096 := by
      rw [Misses, not_or, hzero] at hmiss
      exact Nat.not_le.mp fun hle => hmiss.2 ((Nat.zero_add _).trans_le hle)
    by_cases hsize : size = 0
    · subst hsize
      rw [show (0 : BitVec 64).toNat = 0 from rfl, Nat.add_zero, min_eq_left hbelow.le, BitVec.toNat_add] at hend
      have hz : z = 0#64 := BitVec.eq_of_toNat_eq (show z.toNat = 0 by omega)
      rw [hz] at hadjust
      refine ⟨s, markRange_size_zero hadjust, ⟨rfl, rfl⟩, ?_⟩
      intro k hk
      exact ⟨fun hcovered => absurd hcovered not_covered_of_empty, fun _ => rfl⟩
    · have hpos : 0 < size.toNat := Nat.pos_of_ne_zero fun h => hsize (BitVec.eq_of_toNat_eq h)
      have hz : z ≠ 0 := by
        rintro rfl
        rw [BitVec.ofNat_eq_ofNat, BitVec.add_zero] at hend
        omega
      obtain ⟨s', hmark, hwindow, hbit⟩ := markRange_adjusted hadjust hz h.round (by rw [hend]; exact min_le_right _ _)
      refine ⟨s', hmark, hwindow, ?_⟩
      intro k hk
      rw [covered_iff_of_zero hzero hsize hk, hbit, hend]
      exact ⟨fun hcovered => if_pos hcovered, fun hcovered => if_neg hcovered⟩

end Cover

/-- The pages that were marked as available and not as unavailable since, and those that are allocated. -/
structure Pages where
  marked : Set Nat
  allocated : Set Nat

namespace Pages

def available (a : Pages) : Set Nat := a.marked \ a.allocated

end Pages

inductive Op
  | markAvailable (base size : BitVec 64)
  | markUnavailable (base size : BitVec 64)
  | allocatePage (limit : BitVec 64)
  | freePage (page : BitVec 64)
  | getAvailableSize (limit : BitVec 64)

/-- One call, with what it returns. -/
def perform (s : PageBitmap) : Op → Option (BitVec 64 × PageBitmap)
  | .markAvailable base size => (s.markAvailable base size).map fun s' => (0, s')
  | .markUnavailable base size => (s.markUnavailable base size).map fun s' => (0, s')
  | .allocatePage limit => s.allocatePage limit
  | .freePage page => (s.freePage page).map fun s' => (0, s')
  | .getAvailableSize limit => (s.getAvailableSize limit).map fun size => (size, s)

/-- The pages after a call, by what it returned. -/
def Pages.after (s : PageBitmap) (a : Pages) (op : Op) (result : BitVec 64) : Pages :=
  match op with
  | .markAvailable base size => { a with marked := a.marked ∪ {k | k < s.bits ∧ s.Covered base size k true} }
  | .markUnavailable base size => { a with marked := a.marked \ {k | s.Covered base size k false} }
  | .allocatePage _ => { a with allocated := a.allocated ∪ {k | result ≠ 0 ∧ s.address k = result.toNat} }
  | .freePage page => { a with allocated := a.allocated \ {k | s.address k = page.toNat} }
  | .getAvailableSize _ => a

/-- The pages of a set that lie below a limit. -/
def below (s : PageBitmap) (limit : BitVec 64) (pages : Set Nat) : Set Nat :=
  {k | k ∈ pages ∧ s.address k + 4096 ≤ limit.toNat}

/-- What a call may return. The address zero stands for none. -/
def Correct (s : PageBitmap) (a : Pages) : Op → BitVec 64 → Prop
  | .allocatePage limit, result =>
    (result ≠ 0 ∧ ∃ k ∈ s.below limit a.available, s.address k = result.toNat) ∨
      (result = 0 ∧ s.below limit a.available = ∅)
  | .getAvailableSize limit, result => result.toNat = 4096 * (s.below limit a.available).ncard
  | _, _ => True

/-- The bitmap is the set of the available pages of its window. -/
structure Represents (s : PageBitmap) (a : Pages) : Prop where
  bit_iff : ∀ k < s.bits, bit s.sets k = true ↔ k ∈ a.available
  lt_bits : ∀ k ∈ a.marked, k < s.bits

/-- What the calls must meet: ranges are as `RangeOk` says; no allocated page is marked as available, and none is freed
that was marked as unavailable since; and the page at the address zero is not the only one to allocate. -/
def Allowed (s : PageBitmap) (a : Pages) : Op → Prop
  | .markAvailable base size => s.RangeOk base size true ∧ ∀ k ∈ a.allocated, ¬ s.Covered base size k true
  | .markUnavailable base size => s.RangeOk base size false
  | .allocatePage limit => (∃ k ∈ s.below limit a.available, s.address k = 0) →
      ∃ k ∈ s.below limit a.available, s.address k ≠ 0
  | .freePage page => s.RangeOk page PageSize true ∧ ∀ k < s.bits, s.address k = page.toNat → k ∈ a.marked
  | .getAvailableSize _ => True

/-- What every call preserves. Nothing is ever marked as available in a window that starts elsewhere. -/
structure Inv (s : PageBitmap) (a : Pages) : Prop extends Represents s a where
  unreached : s.baseAddress ≠ 0 → a.marked = ∅

section Step

variable {s s' : PageBitmap} {a a' : Pages} {base size limit page : BitVec 64} {available : Bool} {k n : Nat}

theorem not_covered_of_unreached (h : s.RangeOk base size available) (hbase : s.baseAddress ≠ 0) (hk : k < s.bits) :
    ¬ s.Covered base size k available :=
  not_covered_of_misses (h.reach.resolve_right fun hzero => hbase hzero.1) hk

/-- Marking a range leaves a bitmap of the pages outside of it, and of all of it or none. -/
theorem markRange_represents (h : Represents s a) (hok : s.RangeOk base size available)
    (hin : ∀ k < s.bits, s.Covered base size k available → (k ∈ a'.available ↔ available = true))
    (hout : ∀ k < s.bits, ¬ s.Covered base size k available → (k ∈ a'.available ↔ k ∈ a.available))
    (hlt : ∀ k ∈ a'.marked, k < s.bits) :
    ∃ s', s.markRange base size available = some s' ∧ SameWindow s s' ∧ Represents s' a' := by
  obtain ⟨s', hmark, hwindow, hbit⟩ := markRange_spec hok
  refine ⟨s', hmark, hwindow, ?_, ?_⟩
  · intro k hk
    rw [hwindow.2] at hk
    by_cases hcovered : s.Covered base size k available
    · rw [(hbit k hk).1 hcovered, hin k hk hcovered]
    · rw [(hbit k hk).2 hcovered, hout k hk hcovered, h.bit_iff k hk]
  · intro k hk
    rw [hwindow.2]
    exact hlt k hk

theorem markAvailable_step (h : Inv s a) (hok : s.RangeOk base size true)
    (hfree : ∀ k ∈ a.allocated, ¬ s.Covered base size k true) :
    ∃ s', s.markAvailable base size = some s' ∧ SameWindow s s' ∧ Inv s' (a.after s (.markAvailable base size) 0) := by
  have hrep : ∃ s', s.markAvailable base size = some s' ∧ SameWindow s s' ∧
      Represents s' (a.after s (.markAvailable base size) 0) := by
    refine markRange_represents h.toRepresents hok ?_ ?_ ?_
    · intro k hk hcovered
      exact iff_of_true ⟨Or.inr ⟨hk, hcovered⟩, fun hmem => hfree k hmem hcovered⟩ rfl
    · intro k hk hcovered
      constructor
      · rintro ⟨hmarked | hnew, hmem⟩
        · exact ⟨hmarked, hmem⟩
        · exact absurd hnew.2 hcovered
      · rintro ⟨hmarked, hmem⟩
        exact ⟨Or.inl hmarked, hmem⟩
    · rintro k (hk | hk)
      · exact h.lt_bits k hk
      · exact hk.1
  obtain ⟨s', hmark, hwindow, hrep⟩ := hrep
  refine ⟨s', hmark, hwindow, hrep, ?_⟩
  intro hbase
  rw [hwindow.1] at hbase
  apply Set.eq_empty_of_forall_notMem
  rintro k (hk | ⟨hk, hcovered⟩)
  · rw [h.unreached hbase] at hk
    exact hk
  · exact not_covered_of_unreached hok hbase hk hcovered

theorem markUnavailable_step (h : Inv s a) (hok : s.RangeOk base size false) :
    ∃ s', s.markUnavailable base size = some s' ∧ SameWindow s s' ∧
      Inv s' (a.after s (.markUnavailable base size) 0) := by
  have hrep : ∃ s', s.markUnavailable base size = some s' ∧ SameWindow s s' ∧
      Represents s' (a.after s (.markUnavailable base size) 0) := by
    refine markRange_represents h.toRepresents hok ?_ ?_ ?_
    · intro k hk hcovered
      exact iff_of_false (fun hmem => hmem.1.2 hcovered) Bool.false_ne_true
    · intro k hk hcovered
      exact ⟨fun hmem => ⟨hmem.1.1, hmem.2⟩, fun hmem => ⟨⟨hmem.1, hcovered⟩, hmem.2⟩⟩
    · rintro k ⟨hk, -⟩
      exact h.lt_bits k hk
  obtain ⟨s', hmark, hwindow, hrep⟩ := hrep
  refine ⟨s', hmark, hwindow, hrep, ?_⟩
  intro hbase
  rw [hwindow.1] at hbase
  apply Set.eq_empty_of_forall_notMem
  rintro k ⟨hk, -⟩
  rw [h.unreached hbase] at hk
  exact hk

/-- The range of a page covers this page only. -/
theorem covered_page_iff : s.Covered page PageSize k true ↔ s.address k = page.toNat := by
  have hsize : PageSize.toNat = 4096 := rfl
  rw [Covered, if_pos rfl, pageBytes_subset_iff, hsize]
  omega

theorem freePage_step (h : Inv s a) (hok : s.RangeOk page PageSize true)
    (hmarked : ∀ k < s.bits, s.address k = page.toNat → k ∈ a.marked) :
    ∃ s', s.freePage page = some s' ∧ SameWindow s s' ∧ Inv s' (a.after s (.freePage page) 0) := by
  have hrep : ∃ s', s.freePage page = some s' ∧ SameWindow s s' ∧ Represents s' (a.after s (.freePage page) 0) := by
    refine markRange_represents h.toRepresents hok ?_ ?_ h.lt_bits
    · intro k hk hcovered
      rw [covered_page_iff] at hcovered
      exact iff_of_true ⟨hmarked k hk hcovered, fun hmem => hmem.2 hcovered⟩ rfl
    · intro k hk hcovered
      rw [covered_page_iff] at hcovered
      exact ⟨fun hmem => ⟨hmem.1, fun hallocated => hmem.2 ⟨hallocated, hcovered⟩⟩,
        fun hmem => ⟨hmem.1, fun hallocated => hmem.2 hallocated.1⟩⟩
  obtain ⟨s', hmark, hwindow, hrep⟩ := hrep
  refine ⟨s', hmark, hwindow, hrep, ?_⟩
  intro hbase
  rw [hwindow.1] at hbase
  exact h.unreached hbase

/-- The pages that a scan passes are those of the window below the limit. -/
theorem lt_scanned_iff (hlimit : s.baseAddress.toNat ≤ limit.toNat) :
    k < s.scanned limit ↔ k < s.bits ∧ s.address k + 4096 ≤ limit.toNat := by
  have hpage : PageSize.toNat = 4096 := rfl
  rw [scanned, hpage, BitVec.toNat_sub_of_le hlimit, toNat_length, address]
  omega

variable (s limit) in
theorem scanned_le : s.scanned limit ≤ s.bits := by
  have hpage : PageSize.toNat = 4096 := rfl
  rw [scanned, hpage, toNat_length]
  omega

/-- The page that is found is the last one of those that were scanned. -/
theorem allocateLoop_spec {total : Nat} (htotal : total ≤ s.bits) :
    ∃ result s', s.allocateLoop total = some (result, s') ∧ SameWindow s s' ∧
      ((∃ k < total, bit s.sets k = true ∧ (∀ j, k < j → j < total → bit s.sets j = false) ∧
          result = s.baseAddress + BitVec.ofNat 64 k * PageSize ∧
          ∀ j, bit s'.sets j = if k = j then false else bit s.sets j) ∨
        ((∀ k < total, bit s.sets k = false) ∧ result = 0 ∧ s' = s)) := by
  induction total with
  | zero =>
    refine ⟨0, s, rfl, ⟨rfl, rfl⟩, Or.inr ⟨?_, rfl, rfl⟩⟩
    intro k hk
    exact absurd hk (Nat.not_lt_zero k)
  | succ index ih =>
    rw [allocateLoop, test_of_lt htotal]
    cases hbit : bit s.sets index with
    | true =>
      obtain ⟨s', hset, hwindow, hafter⟩ := set_spec (s := s) (n := index) (b := false) htotal
      refine ⟨_, s', by rw [hset]; rfl, hwindow, Or.inl ⟨index, Nat.lt_succ_self _, hbit, ?_, rfl, hafter⟩⟩
      intro j hj hlt
      omega
    | false =>
      obtain ⟨result, s', hloop, hwindow, hcases⟩ := ih (by omega)
      refine ⟨result, s', hloop, hwindow, ?_⟩
      obtain ⟨k, hk, hfound, hlast, hresult⟩ | ⟨hnone, hresult⟩ := hcases
      · refine Or.inl ⟨k, by omega, hfound, ?_, hresult⟩
        intro j hj hlt
        obtain rfl | hlt := Nat.eq_or_lt_of_le (Nat.le_of_lt_succ hlt)
        · exact hbit
        · exact hlast j hj hlt
      · refine Or.inr ⟨?_, hresult⟩
        intro k hk
        obtain rfl | hlt := Nat.eq_or_lt_of_le (Nat.le_of_lt_succ hk)
        · exact hbit
        · exact hnone k hlt

theorem mem_below_iff (h : Represents s a) (hlimit : s.baseAddress.toNat ≤ limit.toNat) :
    k ∈ s.below limit a.available ↔ k < s.scanned limit ∧ bit s.sets k = true := by
  rw [lt_scanned_iff hlimit]
  constructor
  · rintro ⟨hmem, hbelow⟩
    have hlt := h.lt_bits k hmem.1
    exact ⟨⟨hlt, hbelow⟩, (h.bit_iff k hlt).mpr hmem⟩
  · rintro ⟨⟨hlt, hbelow⟩, hbit⟩
    exact ⟨(h.bit_iff k hlt).mp hbit, hbelow⟩

theorem below_eq_empty (hlimit : limit.toNat < s.baseAddress.toNat) (pages : Set Nat) : s.below limit pages = ∅ := by
  apply Set.eq_empty_of_forall_notMem
  rintro k ⟨-, hbelow⟩
  rw [address] at hbelow
  omega

theorem Inv.base_eq_zero (h : Inv s a) (hk : k ∈ a.available) : s.baseAddress = 0 := by
  by_contra hbase
  have hmarked := hk.1
  rw [h.unreached hbase] at hmarked
  exact hmarked

theorem toNat_page (hzero : s.baseAddress = 0) (hk : k < s.bits) :
    (s.baseAddress + BitVec.ofNat 64 k * PageSize).toNat = s.address k := by
  have hbits := s.bits_lt
  have hpage : PageSize.toNat = 4096 := rfl
  have hbase : s.baseAddress.toNat = 0 := congrArg BitVec.toNat hzero
  rw [address, BitVec.toNat_add, BitVec.toNat_mul, hpage, BitVec.toNat_ofNat, hbase]
  omega

theorem allocatePage_step (h : Inv s a) (hallowed : s.Allowed a (.allocatePage limit)) :
    ∃ result s', s.allocatePage limit = some (result, s') ∧ SameWindow s s' ∧
      s.Correct a (.allocatePage limit) result ∧ Inv s' (a.after s (.allocatePage limit) result) := by
  have hnone : Inv s (a.after s (.allocatePage limit) 0) := by
    have hsame : a.after s (.allocatePage limit) 0 = a := by simp [Pages.after]
    rw [hsame]
    exact h
  by_cases hlow : limit < s.baseAddress
  · refine ⟨0, s, if_pos hlow, ⟨rfl, rfl⟩, Or.inr ⟨rfl, below_eq_empty hlow _⟩, hnone⟩
  · have hlimit : s.baseAddress.toNat ≤ limit.toNat := BitVec.not_lt.mp hlow
    obtain ⟨result, s', hloop, hwindow, hcases⟩ := allocateLoop_spec (scanned_le s limit)
    refine ⟨result, s', ?_, hwindow, ?_⟩
    · rw [allocatePage, if_neg hlow, hloop]
    · obtain ⟨k, hk, hfound, hlast, rfl, hbits⟩ | ⟨hclear, rfl, rfl⟩ := hcases
      · have hmem := (mem_below_iff h.toRepresents hlimit).mpr ⟨hk, hfound⟩
        have hzero := h.base_eq_zero hmem.1
        have hresult := toNat_page hzero (hk.trans_le (scanned_le s limit))
        have hne : s.baseAddress + BitVec.ofNat 64 k * PageSize ≠ 0 := by
          intro hnull
          rw [hnull] at hresult
          obtain ⟨j, hj, hne⟩ := hallowed ⟨k, hmem, hresult.symm⟩
          obtain ⟨hlt, hbit⟩ := (mem_below_iff h.toRepresents hlimit).mp hj
          have hkj : k < j := by
            have hzero : (0 : BitVec 64).toNat = 0 := rfl
            simp only [address] at hresult hne
            omega
          exact Bool.false_ne_true ((hlast j hkj hlt).symm.trans hbit)
        refine ⟨Or.inl ⟨hne, k, hmem, hresult.symm⟩, ⟨?_, ?_⟩, ?_⟩
        · intro j hj
          rw [hwindow.2] at hj
          rw [hbits]
          by_cases hkj : k = j
          · subst hkj
            rw [if_pos rfl]
            exact iff_of_false Bool.false_ne_true fun hmem => hmem.2 (Or.inr ⟨hne, hresult.symm⟩)
          · have haddress : s.address j ≠ (s.baseAddress + BitVec.ofNat 64 k * PageSize).toNat := by
              rw [hresult, address, address]
              omega
            rw [if_neg hkj, h.bit_iff j hj]
            exact ⟨fun hmem => ⟨hmem.1, fun hor => hor.elim hmem.2 fun hnew => haddress hnew.2⟩,
              fun hmem => ⟨hmem.1, fun hold => hmem.2 (Or.inl hold)⟩⟩
        · intro j hj
          rw [hwindow.2]
          exact h.lt_bits j hj
        · intro hbase
          rw [hwindow.1] at hbase
          exact h.unreached hbase
      · refine ⟨Or.inr ⟨rfl, ?_⟩, hnone⟩
        apply Set.eq_empty_of_forall_notMem
        intro k hk
        rw [mem_below_iff h.toRepresents hlimit] at hk
        exact Bool.false_ne_true ((hclear k hk.1).symm.trans hk.2)

/-- The sizes of the available pages are added up. -/
theorem sizes_eq {total : Nat} (htotal : total ≤ s.bits) :
    (List.range total).foldlM (fun size i => (s.test i).map fun b => if b then size + PageSize else size)
        (0 : BitVec 64) =
      some (BitVec.ofNat 64 (4096 * (List.range total).countP fun k => bit s.sets k)) := by
  induction total with
  | zero => rfl
  | succ n ih =>
    rw [List.range_succ, List.foldlM_append, ih (by omega)]
    refine (Option.bind_some ..).trans ((List.foldlM_cons ..).trans ?_)
    rw [test_of_lt htotal, List.countP_append]
    cases hbit : bit s.sets n with
    | true =>
      rw [List.countP_singleton, if_pos hbit, Nat.mul_add, BitVec.ofNat_add]
      rfl
    | false =>
      rw [List.countP_singleton, hbit, if_neg Bool.false_ne_true, Nat.add_zero]
      rfl

theorem getAvailableSize_step (h : Inv s a) (limit : BitVec 64) :
    ∃ size, s.getAvailableSize limit = some size ∧ s.Correct a (.getAvailableSize limit) size := by
  have hle := scanned_le s limit
  refine ⟨_, sizes_eq hle, ?_⟩
  have hcount : (List.range (s.scanned limit)).countP (fun k => bit s.sets k) = (s.below limit a.available).ncard := by
    by_cases hlow : limit.toNat < s.baseAddress.toNat
    · have hbase : s.baseAddress ≠ 0 := by
        intro hzero
        rw [hzero] at hlow
        exact Nat.not_lt_zero _ hlow
      rw [below_eq_empty hlow, Set.ncard_empty, List.countP_eq_zero]
      intro k hk hbit
      have hmem := (h.bit_iff k ((List.mem_range.mp hk).trans_le hle)).mp hbit
      exact hbase (h.base_eq_zero hmem)
    · have hset : s.below limit a.available =
          ((Finset.range (s.scanned limit)).filter fun k => bit s.sets k = true : Finset Nat) := by
        ext k
        rw [mem_below_iff h.toRepresents (Nat.not_lt.mp hlow), Finset.mem_coe, Finset.mem_filter, Finset.mem_range]
      rw [hset, Set.ncard_coe_finset, List.countP_eq_length_filter]
      exact congrArg List.length (List.filter_congr fun k _ => Bool.decide_eq_true.symm)
  have hcount_le : (List.range (s.scanned limit)).countP (fun k => bit s.sets k) ≤ s.scanned limit :=
    List.countP_le_length.trans_eq List.length_range
  have hbits := s.bits_lt
  rw [Correct, ← hcount, BitVec.toNat_ofNat, Nat.mod_eq_of_lt (by omega)]

end Step

section Run

/-- A bitmap with the pages that it stands for. -/
abbrev State : Type := PageBitmap × Pages

def step (t : State) (op : Op) : Option State :=
  (t.1.perform op).map fun r => (r.2, t.2.after t.1 op r.1)

def allowed (t : State) (op : Op) : Prop := t.1.Allowed t.2 op

theorem perform_spec {s : PageBitmap} {a : Pages} {op : Op} (h : Inv s a) (hallowed : s.Allowed a op) :
    ∃ result s', s.perform op = some (result, s') ∧ s.Correct a op result ∧ Inv s' (a.after s op result) := by
  cases op with
  | markAvailable base size =>
    obtain ⟨s', hmark, -, hinv⟩ := markAvailable_step h hallowed.1 hallowed.2
    exact ⟨0, s', by rw [perform, hmark]; rfl, trivial, hinv⟩
  | markUnavailable base size =>
    obtain ⟨s', hmark, -, hinv⟩ := markUnavailable_step h hallowed
    exact ⟨0, s', by rw [perform, hmark]; rfl, trivial, hinv⟩
  | allocatePage limit =>
    obtain ⟨result, s', hallocate, -, hcorrect, hinv⟩ := allocatePage_step h hallowed
    exact ⟨result, s', hallocate, hcorrect, hinv⟩
  | freePage page =>
    obtain ⟨s', hfree, -, hinv⟩ := freePage_step h hallowed.1 hallowed.2
    exact ⟨0, s', by rw [perform, hfree]; rfl, trivial, hinv⟩
  | getAvailableSize limit =>
    obtain ⟨size, hsize, hcorrect⟩ := getAvailableSize_step h limit
    exact ⟨size, s, by rw [perform, hsize]; rfl, hcorrect, h⟩

theorem inv_clear {s : PageBitmap} (hclear : ∀ k < s.bits, bit s.sets k = false) : Inv s ⟨∅, ∅⟩ := by
  refine ⟨⟨?_, ?_⟩, fun _ => rfl⟩
  · intro k hk
    rw [hclear k hk]
    exact iff_of_false Bool.false_ne_true fun hmem => hmem.1
  · intro k hk
    exact absurd hk (Set.notMem_empty k)

/-- In every run of a clear bitmap whose calls are allowed, the bitmap represents the pages that are available, and
every further call that is allowed stays in the bitmap and returns what it should. -/
theorem run_represents {s : PageBitmap} (hclear : ∀ k < s.bits, bit s.sets k = false) {ops : List Op} {t : State}
    (h : Execution step allowed (s, ⟨∅, ∅⟩) ops t) :
    Represents t.1 t.2 ∧ ∀ op, allowed t op →
      ∃ result s', t.1.perform op = some (result, s') ∧ t.1.Correct t.2 op result := by
  have hinv : Inv t.1 t.2 := by
    refine h.invariant (P := fun t => Inv t.1 t.2) (inv_clear hclear) ?_
    intro t u op ht hallowed hstep
    obtain ⟨result, s', hperform, -, hinv⟩ := perform_spec ht hallowed
    rw [step, hperform] at hstep
    obtain rfl := Option.some.inj hstep
    exact hinv
  refine ⟨hinv.toRepresents, ?_⟩
  intro op hallowed
  obtain ⟨result, s', hperform, hcorrect, -⟩ := perform_spec hinv hallowed
  exact ⟨result, s', hperform, hcorrect⟩

/-- A bitmap of 32 pages from an address on. -/
def smallBitmap (base : BitVec 64) (hbase : base.toNat % 4096 = 0) : PageBitmap where
  baseAddress := base
  bits := 32
  sets := [0]
  base_page := hbase
  le_bits := le_rfl
  bits_lt := Nat.le_of_ble_eq_true rfl
  le_sets := Nat.le_of_ble_eq_true rfl

theorem smallBitmap_clear (base : BitVec 64) (hbase : base.toNat % 4096 = 0) :
    ∀ k < (smallBitmap base hbase).bits, bit (smallBitmap base hbase).sets k = false := by
  change ∀ k < 32, bit [(0 : BitVec 64)] k = false
  decide

/-- Two pages are available after three were marked and one was allocated. -/
theorem run_represents_small :
    ∃ t, Execution step allowed (smallBitmap 0 rfl, ⟨∅, ∅⟩)
        [.markAvailable 0x1000 0x3fff, .allocatePage 0xffffffff] t ∧ Represents t.1 t.2 := by
  obtain ⟨t, h⟩ : ∃ t, Execution step allowed (smallBitmap 0 rfl, ⟨∅, ∅⟩)
      [.markAvailable 0x1000 0x3fff, .allocatePage 0xffffffff] t := by
    refine ⟨_, .snoc (.snoc .nil ?_ rfl) ?_ rfl⟩
    · exact ⟨⟨fun _ => by decide, Or.inr ⟨rfl, by decide⟩⟩, fun k hk => absurd hk (Set.notMem_empty k)⟩
    · rintro ⟨k, ⟨⟨hk, -⟩, -⟩, haddress⟩
      obtain hk | ⟨-, hcovered⟩ := hk
      · exact absurd hk (Set.notMem_empty k)
      · have hpage : (smallBitmap 0 rfl).address k = 0 := haddress
        rw [Covered, if_pos rfl, pageBytes_subset_iff] at hcovered
        have hle : 0x1000 ≤ (smallBitmap 0 rfl).address k := hcovered.1
        omega
  exact ⟨t, h, (run_represents (smallBitmap_clear 0 rfl) h).1⟩

/-- The first page of a window from 1 MiB on has the bit 256. -/
theorem markAvailable_outside :
    ¬ ∃ result s', (smallBitmap 0x100000 rfl).perform (.markAvailable 0x100000 0x1000) = some (result, s') := by
  have hnone : (smallBitmap 0x100000 rfl).perform (.markAvailable 0x100000 0x1000) = none := rfl
  rw [hnone]
  rintro ⟨result, s', h⟩
  cases h

end Run

end XviOs.Igniter.PageBitmap
