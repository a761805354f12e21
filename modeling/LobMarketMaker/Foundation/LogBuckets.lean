import Mathlib.Data.Nat.Log
import Mathlib.Order.GaloisConnection.Basic
import Mathlib.Order.Monotone.Basic
import Mathlib.Tactic.Ring

/-!
# Log-linear buckets

Numbers below `2 ^ (b + 1)` have a bucket each; above, every power of two is split into `2 ^ b`
buckets of equal width, so a bucket is named by the position of the leading bit and the `b` bits
that follow.

* `bucketIndex b v`: the bucket of `v`; `bucketStart b i`: the least number of bucket `i`;
* `bucketStart_block`: bucket `2 ^ b * e + q` starts at `q * 2 ^ e`;
* `bucketStart_strictMono`, **`bucketStart_gc`**: the starts increase, and `v` lies at or above the
  start of bucket `i` exactly if its own bucket is `i` or a later one;
* `bucketStart_top`: the numbers of `w` bits fill the first `2 ^ b * (w - b + 1)` buckets;
* `bucketStart_error`: a number exceeds the start of its bucket by less than a `2 ^ b`-th of itself.
-/

set_option autoImplicit false

namespace Foundation

variable (b : ℕ)

/-- The bucket of `v`. -/
def bucketIndex (v : ℕ) : ℕ :=
  if v < 2 ^ (b + 1) then v else 2 ^ b * (v.log2 - b) + v >>> (v.log2 - b)

/-- The least number of bucket `i`. -/
def bucketStart (i : ℕ) : ℕ :=
  if i < 2 ^ (b + 1) then i else (2 ^ b + i % 2 ^ b) <<< (i / 2 ^ b - 1)

variable {b} {e q i v : ℕ}

/-! ### Where a bucket starts -/

theorem bucketStart_of_lt (h : i < 2 ^ (b + 1)) : bucketStart b i = i := if_pos h

theorem bucketStart_of_le (h : 2 ^ (b + 1) ≤ i) :
    bucketStart b i = (2 ^ b + i % 2 ^ b) <<< (i / 2 ^ b - 1) := if_neg (not_lt.mpr h)

theorem bucketIndex_of_lt (h : v < 2 ^ (b + 1)) : bucketIndex b v = v := if_pos h

theorem bucketIndex_of_le (h : 2 ^ (b + 1) ≤ v) :
    bucketIndex b v = 2 ^ b * (v.log2 - b) + v >>> (v.log2 - b) := if_neg (not_lt.mpr h)

private theorem bucketStart_block_of_lt (h₁ : 2 ^ b ≤ q) (h₂ : q < 2 ^ (b + 1)) :
    bucketStart b (2 ^ b * e + q) = q * 2 ^ e := by
  obtain ⟨sub, rfl⟩ := Nat.exists_eq_add_of_le h₁
  have hsub : sub < 2 ^ b := by
    rw [pow_succ] at h₂
    omega
  have hdiv : (2 ^ b * e + (2 ^ b + sub)) / 2 ^ b = e + 1 := by
    rw [← add_assoc, ← Nat.mul_succ, Nat.mul_add_div (Nat.two_pow_pos b), Nat.div_eq_of_lt hsub,
      add_zero]
  have hmod : (2 ^ b * e + (2 ^ b + sub)) % 2 ^ b = sub := by
    rw [Nat.mul_add_mod, Nat.add_mod_left, Nat.mod_eq_of_lt hsub]
  cases e with
  | zero => rw [mul_zero, zero_add, bucketStart_of_lt h₂, pow_zero, mul_one]
  | succ e =>
    have hge : 2 ^ (b + 1) ≤ 2 ^ b * (e + 1) + (2 ^ b + sub) := by
      rw [pow_succ, Nat.mul_succ (2 ^ b) e]
      omega
    rw [bucketStart_of_le hge, hdiv, hmod, Nat.add_sub_cancel, Nat.shiftLeft_eq]

/-- The leading bits `q` and the exponent `e` determine the start; at `q = 2 ^ (b + 1)` this is the
first bucket of the next power of two. -/
theorem bucketStart_block (h₁ : 2 ^ b ≤ q) (h₂ : q ≤ 2 ^ (b + 1)) :
    bucketStart b (2 ^ b * e + q) = q * 2 ^ e := by
  rcases h₂.lt_or_eq with h₂ | rfl
  · exact bucketStart_block_of_lt h₁ h₂
  · have hnext : 2 ^ b * e + 2 ^ (b + 1) = 2 ^ b * (e + 1) + 2 ^ b := by ring
    have hlt : 2 ^ b < 2 ^ (b + 1) := Nat.pow_lt_pow_succ Nat.one_lt_two
    rw [hnext, bucketStart_block_of_lt le_rfl hlt]
    ring

theorem exists_block (h : 2 ^ b ≤ i) :
    ∃ e q, 2 ^ b ≤ q ∧ q < 2 ^ (b + 1) ∧ i = 2 ^ b * e + q := by
  have hpos : 1 ≤ i / 2 ^ b := Nat.div_pos h (Nat.two_pow_pos b)
  obtain ⟨e, he⟩ := Nat.exists_eq_add_of_le hpos
  have hmod := Nat.mod_lt i (Nat.two_pow_pos b)
  refine ⟨e, 2 ^ b + i % 2 ^ b, Nat.le_add_right _ _, ?_, ?_⟩
  · rw [pow_succ]
    omega
  · calc i = 2 ^ b * (i / 2 ^ b) + i % 2 ^ b := (Nat.div_add_mod i (2 ^ b)).symm
      _ = 2 ^ b * e + (2 ^ b + i % 2 ^ b) := by rw [he]; ring

theorem bucketStart_lt_succ (i : ℕ) : bucketStart b i < bucketStart b (i + 1) := by
  rcases lt_or_ge i (2 ^ b) with hi | hi
  · have hlt : 2 ^ b < 2 ^ (b + 1) := Nat.pow_lt_pow_succ Nat.one_lt_two
    rw [bucketStart_of_lt (hi.trans hlt), bucketStart_of_lt (lt_of_le_of_lt hi hlt)]
    exact Nat.lt_succ_self i
  · obtain ⟨e, q, h₁, h₂, rfl⟩ := exists_block hi
    rw [add_assoc, bucketStart_block h₁ h₂.le, bucketStart_block (Nat.le_succ_of_le h₁) h₂]
    exact Nat.mul_lt_mul_of_pos_right (Nat.lt_succ_self q) (Nat.two_pow_pos e)

theorem bucketStart_strictMono : StrictMono (bucketStart b) :=
  strictMono_nat_of_lt_succ bucketStart_lt_succ

/-! ### The bucket of a number -/

theorem bucketIndex_block (h : 2 ^ b ≤ v) :
    ∃ e q, 2 ^ b ≤ q ∧ q < 2 ^ (b + 1) ∧ bucketIndex b v = 2 ^ b * e + q ∧
      q * 2 ^ e ≤ v ∧ v < (q + 1) * 2 ^ e := by
  rcases lt_or_ge v (2 ^ (b + 1)) with hv | hv
  · refine ⟨0, v, h, hv, ?_, ?_, ?_⟩
    · rw [bucketIndex_of_lt hv, mul_zero, zero_add]
    · rw [pow_zero, mul_one]
    · rw [pow_zero, mul_one]
      exact Nat.lt_succ_self v
  · have hne : v ≠ 0 := (lt_of_lt_of_le (Nat.two_pow_pos _) hv).ne'
    have hb : b ≤ v.log2 := (Nat.le_log2 hne).mpr h
    obtain ⟨e, he⟩ := Nat.exists_eq_add_of_le hb
    have hexp : v.log2 - b = e := by omega
    have hlow : 2 ^ b * 2 ^ e ≤ v := by
      rw [← pow_add, ← he]
      exact Nat.log2_self_le hne
    have hhigh : v < 2 ^ (b + 1) * 2 ^ e := by
      rw [← pow_add, show b + 1 + e = v.log2 + 1 by omega]
      exact Nat.lt_log2_self
    refine ⟨e, v / 2 ^ e, ?_, ?_, ?_, Nat.div_mul_le_self v _, ?_⟩
    · exact (Nat.le_div_iff_mul_le (Nat.two_pow_pos e)).mpr hlow
    · exact (Nat.div_lt_iff_lt_mul (Nat.two_pow_pos e)).mpr hhigh
    · rw [bucketIndex_of_le hv, hexp, Nat.shiftRight_eq_div_pow]
    · exact (Nat.div_lt_iff_lt_mul (Nat.two_pow_pos e)).mp (Nat.lt_succ_self _)

theorem bucketStart_bucketIndex_le (v : ℕ) : bucketStart b (bucketIndex b v) ≤ v := by
  rcases lt_or_ge v (2 ^ b) with hv | hv
  · have hlt : v < 2 ^ (b + 1) := hv.trans (Nat.pow_lt_pow_succ Nat.one_lt_two)
    rw [bucketIndex_of_lt hlt, bucketStart_of_lt hlt]
  · obtain ⟨e, q, h₁, h₂, hidx, hlow, -⟩ := bucketIndex_block hv
    rw [hidx, bucketStart_block h₁ h₂.le]
    exact hlow

theorem lt_bucketStart_bucketIndex_succ (v : ℕ) : v < bucketStart b (bucketIndex b v + 1) := by
  rcases lt_or_ge v (2 ^ b) with hv | hv
  · have hlt : 2 ^ b < 2 ^ (b + 1) := Nat.pow_lt_pow_succ Nat.one_lt_two
    rw [bucketIndex_of_lt (hv.trans hlt), bucketStart_of_lt (lt_of_le_of_lt hv hlt)]
    exact Nat.lt_succ_self v
  · obtain ⟨e, q, h₁, h₂, hidx, -, hhigh⟩ := bucketIndex_block hv
    rw [hidx, add_assoc, bucketStart_block (Nat.le_succ_of_le h₁) h₂]
    exact hhigh

/-- **The two maps determine each other.** -/
theorem bucketStart_gc : GaloisConnection (bucketStart b) (bucketIndex b) := by
  intro i v
  constructor
  · intro h
    by_contra hlt
    have hle : bucketStart b (bucketIndex b v + 1) ≤ bucketStart b i :=
      bucketStart_strictMono.monotone (not_le.mp hlt)
    exact absurd (lt_bucketStart_bucketIndex_succ v) (not_lt.mpr (hle.trans h))
  · intro h
    exact (bucketStart_strictMono.monotone h).trans (bucketStart_bucketIndex_le v)

theorem bucketIndex_bucketStart (i : ℕ) : bucketIndex b (bucketStart b i) = i := by
  refine le_antisymm ?_ (bucketStart_gc.le_u_l i)
  exact bucketStart_strictMono.le_iff_le.mp (bucketStart_bucketIndex_le _)

/-! ### Range and error -/

theorem bucketStart_top {w : ℕ} (h : b ≤ w) : bucketStart b (2 ^ b * (w - b + 1)) = 2 ^ w := by
  rw [Nat.mul_succ, bucketStart_block le_rfl (Nat.pow_le_pow_right Nat.two_pos (Nat.le_succ b)),
    ← pow_add, Nat.add_sub_cancel' h]

/-- **The error of a start** is less than a `2 ^ b`-th of the number. -/
theorem bucketStart_error (hv : 2 ^ b ≤ v) :
    2 ^ b * (v - bucketStart b (bucketIndex b v)) < v := by
  obtain ⟨e, q, h₁, h₂, hidx, hlow, hhigh⟩ := bucketIndex_block hv
  rw [hidx, bucketStart_block h₁ h₂.le]
  have hwidth : v - q * 2 ^ e < 2 ^ e := by
    rw [Nat.succ_mul] at hhigh
    omega
  calc 2 ^ b * (v - q * 2 ^ e) < 2 ^ b * 2 ^ e :=
        Nat.mul_lt_mul_of_pos_left hwidth (Nat.two_pow_pos b)
    _ ≤ q * 2 ^ e := Nat.mul_le_mul_right _ h₁
    _ ≤ v := hlow

end Foundation
