import Mathlib.Tactic

namespace XviOs.Library.ByteOrder

variable {α : Type*} {n v : ℕ}

/-- The `n` low bytes of a number, from the lowest on. -/
def bytesOf : ℕ → ℕ → List UInt8
  | 0, _ => []
  | n + 1, v => UInt8.ofNat v :: bytesOf n (v / 256)

def valueOf : List UInt8 → ℕ
  | [] => 0
  | b :: bytes => b.toNat + 256 * valueOf bytes

@[simp]
theorem length_bytesOf (n v : ℕ) : (bytesOf n v).length = n := by
  induction n generalizing v with
  | zero => rfl
  | succ n ih => rw [bytesOf, List.length_cons, ih]

theorem valueOf_lt (bytes : List UInt8) : valueOf bytes < 256 ^ bytes.length := by
  induction bytes with
  | nil => exact Nat.one_pos
  | cons b bytes ih =>
    have hb := b.toNat_lt
    rw [valueOf, List.length_cons, pow_succ]
    omega

theorem valueOf_bytesOf (n v : ℕ) : valueOf (bytesOf n v) = v % 256 ^ n := by
  induction n generalizing v with
  | zero => exact (Nat.mod_one v).symm
  | succ n ih => rw [bytesOf, valueOf, ih, pow_succ', Nat.mod_mul, UInt8.toNat_ofNat']

theorem valueOf_bytesOf_of_lt (h : v < 256 ^ n) : valueOf (bytesOf n v) = v := by
  rw [valueOf_bytesOf, Nat.mod_eq_of_lt h]

theorem bytesOf_valueOf (bytes : List UInt8) : bytesOf bytes.length (valueOf bytes) = bytes := by
  induction bytes with
  | nil => rfl
  | cons b bytes ih =>
    have hb := b.toNat_lt
    have hhead : UInt8.ofNat (b.toNat + 256 * valueOf bytes) = b := by
      apply UInt8.toNat_inj.mp
      rw [UInt8.toNat_ofNat']
      omega
    have htail : (b.toNat + 256 * valueOf bytes) / 256 = valueOf bytes := by omega
    rw [List.length_cons, valueOf, bytesOf, hhead, htail, ih]

inductive Endian
  | little
  | big
  deriving DecidableEq

namespace Endian

/-- The bytes in the order, from the lowest on. -/
def arrange : Endian → List α → List α
  | little, l => l
  | big, l => l.reverse

@[simp]
theorem arrange_arrange (e : Endian) (l : List α) : e.arrange (e.arrange l) = l := by
  cases e with
  | little => rfl
  | big => exact List.reverse_reverse l

@[simp]
theorem length_arrange (e : Endian) (l : List α) : (e.arrange l).length = l.length := by
  cases e with
  | little => rfl
  | big => exact List.length_reverse

/-- The other order. -/
theorem arrange_reverse_of_ne {e e' : Endian} (h : e ≠ e') (l : List α) : e'.arrange l.reverse = e.arrange l := by
  cases e <;> cases e' <;> simp_all [arrange]

end Endian

end XviOs.Library.ByteOrder

namespace XviOs.Library.Leb128

/-- The lowest group of seven bits. -/
def low (v : Int) : Nat := (v % 128).toNat

/-- Groups of seven bits, the lowest first; in every byte but the last the high bit is set. -/
def encodeUnsigned (v : Nat) : List (BitVec 8) :=
  if v < 128 then [BitVec.ofNat 8 v] else BitVec.ofNat 8 (v % 128 + 128) :: encodeUnsigned (v / 128)

/-- The same for a signed number, whose last group has the sign as its high bit. -/
def encodeSigned (v : Int) : List (BitVec 8) :=
  if -64 ≤ v ∧ v < 64 then [BitVec.ofNat 8 (low v)]
  else BitVec.ofNat 8 (low v + 128) :: encodeSigned (v / 128)
termination_by v.natAbs

/-- The bytes of `n + 1` groups. -/
def groups : Nat → Int → List (BitVec 8)
  | 0, v => [BitVec.ofNat 8 (low v)]
  | n + 1, v => BitVec.ofNat 8 (low v + 128) :: groups n (v / 128)

theorem low_lt (v : Int) : low v < 128 := by
  rw [low]
  omega

theorem low_natCast (v : Nat) : low v = v % 128 := by
  rw [low]
  omega

/-- The bits below the `k`-th group and those of the group. -/
theorem emod_pow_succ (v : Int) (k : Nat) :
    v % 128 ^ (k + 1) = v % 128 ^ k + 128 ^ k * low (v / 128 ^ k) := by
  have hlow : (low (v / 128 ^ k) : Int) = v / 128 ^ k % 128 := Int.toNat_of_nonneg (Int.emod_nonneg _ (by decide))
  have hdiv : v / (128 ^ k * 128) = v / 128 ^ k / 128 := (Int.ediv_ediv_of_nonneg (by positivity)).symm
  rw [hlow, pow_succ, Int.emod_def, hdiv, Int.emod_def v, Int.emod_def (v / 128 ^ k)]
  ring

theorem encodeUnsigned_eq_groups (v : Nat) :
    ∃ n, encodeUnsigned v = groups n v ∧ v < 128 ^ (n + 1) ∧ ∀ m, n = m + 1 → 128 ^ n ≤ v := by
  induction v using Nat.strongRecOn with
  | ind v ih =>
    rw [encodeUnsigned]
    by_cases hv : v < 128
    · refine ⟨0, ?_, by omega, by simp⟩
      rw [if_pos hv, groups, low_natCast, Nat.mod_eq_of_lt hv]
    · obtain ⟨n, heq, hlt, hle⟩ := ih (v / 128) (by omega)
      refine ⟨n + 1, ?_, ?_, ?_⟩
      · rw [if_neg hv, groups, low_natCast, heq]
        rfl
      · rw [pow_succ]
        omega
      · rintro m -
        cases n with
        | zero => omega
        | succ n =>
          have hn := hle n rfl
          rw [pow_succ]
          omega

theorem encodeSigned_eq_groups (v : Int) :
    ∃ n, encodeSigned v = groups n v ∧ (-64 * 128 ^ n ≤ v ∧ v < 64 * 128 ^ n) ∧
      ∀ m, n = m + 1 → ¬ (-64 * 128 ^ m ≤ v ∧ v < 64 * 128 ^ m) := by
  induction hsize : v.natAbs using Nat.strongRecOn generalizing v with
  | ind size ih =>
    rw [encodeSigned]
    by_cases hv : -64 ≤ v ∧ v < 64
    · refine ⟨0, ?_, by omega, by simp⟩
      rw [if_pos hv, groups]
    · obtain ⟨n, heq, hin, hout⟩ := ih (v / 128).natAbs (by omega) (v / 128) rfl
      refine ⟨n + 1, ?_, ?_, ?_⟩
      · rw [if_neg hv, groups, heq]
      · rw [pow_succ]
        omega
      · intro m hm
        obtain rfl : n = m := by omega
        cases n with
        | zero => simpa using hv
        | succ n =>
          have hn := hout n rfl
          rw [pow_succ]
          omega

end XviOs.Library.Leb128
