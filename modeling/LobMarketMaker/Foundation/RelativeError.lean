import Mathlib.Algebra.Order.Field.Basic
import Mathlib.Tactic.Linarith
import Mathlib.Tactic.Positivity
import Mathlib.Tactic.Ring

/-!
# Equal up to roundings

A rounded operation gives its exact result up to a factor of about `1 + ε`. Over a calculation with
positive numbers the factors only have to be counted.

* `Close ε k x y`: `x` and `y` are equal up to `k` such factors;
* `Close.trans`, `Close.add`, `Close.mul`, `Close.div`: how they are counted;
* `Close.of_abs_sub_le`: a relative error is one factor;
* `one_add_pow_le`, `Close.abs_sub_le`: and `k` factors are a relative error of at most `2kε`.
-/

set_option autoImplicit false

namespace Foundation

variable {K : Type} [Field K] [LinearOrder K] [IsStrictOrderedRing K] {ε u x y z x' y' : K}
  {k l : ℕ}

/-- Equal up to `k` factors `1 + ε`. -/
structure Close (ε : K) (k : ℕ) (x y : K) : Prop where
  le : x ≤ y * (1 + ε) ^ k
  ge : y ≤ x * (1 + ε) ^ k

namespace Close

omit [IsStrictOrderedRing K] in
theorem refl (ε x : K) : Close ε 0 x x :=
  have h : x ≤ x * (1 + ε) ^ 0 := by rw [pow_zero, mul_one]
  ⟨h, h⟩

omit [IsStrictOrderedRing K] in
theorem symm (h : Close ε k x y) : Close ε k y x := ⟨h.ge, h.le⟩

theorem pos_of_pos (h : Close ε k x y) (hε : 0 ≤ ε) (hy : 0 < y) : 0 < x := by
  have hpow : 0 < (1 + ε) ^ k := by positivity
  exact pos_of_mul_pos_left (hy.trans_le h.ge) hpow.le

theorem mono (h : Close ε k x y) (hε : 0 ≤ ε) (hx : 0 ≤ x) (hy : 0 ≤ y) (hkl : k ≤ l) :
    Close ε l x y := by
  have hpow : (1 + ε) ^ k ≤ (1 + ε) ^ l := pow_le_pow_right₀ (by linarith) hkl
  exact ⟨h.le.trans (mul_le_mul_of_nonneg_left hpow hy),
    h.ge.trans (mul_le_mul_of_nonneg_left hpow hx)⟩

/-! ## Counting -/

theorem trans (h : Close ε k x y) (h' : Close ε l y z) (hε : 0 ≤ ε) : Close ε (k + l) x z := by
  have hk : 0 ≤ (1 + ε) ^ k := by positivity
  have hl : 0 ≤ (1 + ε) ^ l := by positivity
  constructor
  · calc x ≤ y * (1 + ε) ^ k := h.le
      _ ≤ z * (1 + ε) ^ l * (1 + ε) ^ k := mul_le_mul_of_nonneg_right h'.le hk
      _ = z * (1 + ε) ^ (k + l) := by ring
  · calc z ≤ y * (1 + ε) ^ l := h'.ge
      _ ≤ x * (1 + ε) ^ k * (1 + ε) ^ l := mul_le_mul_of_nonneg_right h.ge hl
      _ = x * (1 + ε) ^ (k + l) := by ring

/-- **A sum** has the factors of its parts. -/
theorem add (h : Close ε k x y) (h' : Close ε k x' y') : Close ε k (x + x') (y + y') := by
  constructor
  · rw [add_mul]
    exact add_le_add h.le h'.le
  · rw [add_mul]
    exact add_le_add h.ge h'.ge

/-- **A product** has those of both. -/
theorem mul (h : Close ε k x y) (h' : Close ε l x' y') (hε : 0 ≤ ε) (hx : 0 ≤ x) (hy : 0 ≤ y)
    (hx' : 0 ≤ x') (hy' : 0 ≤ y') : Close ε (k + l) (x * x') (y * y') := by
  have hk : 0 ≤ (1 + ε) ^ k := by positivity
  constructor
  · calc x * x' ≤ y * (1 + ε) ^ k * (y' * (1 + ε) ^ l) :=
          mul_le_mul h.le h'.le hx' (mul_nonneg hy hk)
      _ = y * y' * (1 + ε) ^ (k + l) := by ring
  · calc y * y' ≤ x * (1 + ε) ^ k * (x' * (1 + ε) ^ l) :=
          mul_le_mul h.ge h'.ge hy' (mul_nonneg hx hk)
      _ = x * x' * (1 + ε) ^ (k + l) := by ring

/-- **A reciprocal** keeps them. -/
theorem inv (h : Close ε k x y) (hx : 0 < x) (hy : 0 < y) : Close ε k x⁻¹ y⁻¹ := by
  constructor
  · rw [inv_mul_eq_div, inv_le_iff_one_le_mul₀ hx, div_mul_eq_mul_div, one_le_div hy, mul_comm]
    exact h.ge
  · rw [inv_mul_eq_div, inv_le_iff_one_le_mul₀ hy, div_mul_eq_mul_div, one_le_div hx, mul_comm]
    exact h.le

/-- **A quotient** has those of both. -/
theorem div (h : Close ε k x y) (h' : Close ε l x' y') (hε : 0 ≤ ε) (hx : 0 ≤ x) (hy : 0 ≤ y)
    (hx' : 0 < x') (hy' : 0 < y') : Close ε (k + l) (x / x') (y / y') := by
  rw [div_eq_mul_inv, div_eq_mul_inv]
  exact h.mul (h'.inv hx' hy') hε hx hy (inv_nonneg.mpr hx'.le) (inv_nonneg.mpr hy'.le)

/-! ## Errors -/

/-- **A relative error** of at most one half is one factor. -/
theorem of_abs_sub_le (hx : 0 ≤ x) (hu : 0 ≤ u) (hu' : u ≤ 1 / 2) (h : |y - x| ≤ x * u) :
    Close (2 * u) 1 y x := by
  obtain ⟨lo, hi⟩ := abs_le.mp h
  have hxu : 0 ≤ x * u := mul_nonneg hx hu
  have hsq : x * u * u ≤ x * u * (1 / 2) := mul_le_mul_of_nonneg_left hu' hxu
  constructor
  · rw [pow_one]
    linarith
  · rw [pow_one]
    have hy : x * (1 - u) * (1 + 2 * u) ≤ y * (1 + 2 * u) :=
      mul_le_mul_of_nonneg_right (by linarith) (by linarith)
    have hexpand : x * (1 - u) * (1 + 2 * u) = x + x * u - 2 * (x * u * u) := by ring
    linarith

end Close

theorem one_add_pow_le (hε : 0 ≤ ε) (hk : 2 * k * ε ≤ 1) : (1 + ε) ^ k ≤ 1 + 2 * k * ε := by
  induction k with
  | zero => simp
  | succ k ih =>
    push_cast at hk ⊢
    have hsmall : 2 * (k : K) * ε ≤ 1 := by linarith
    have hsq : 2 * (k : K) * ε * ε ≤ 1 * ε := mul_le_mul_of_nonneg_right hsmall hε
    calc (1 + ε) ^ (k + 1) = (1 + ε) ^ k * (1 + ε) := pow_succ _ _
      _ ≤ (1 + 2 * k * ε) * (1 + ε) := mul_le_mul_of_nonneg_right (ih hsmall) (by linarith)
      _ = 1 + 2 * k * ε + ε + 2 * k * ε * ε := by ring
      _ ≤ 1 + 2 * (k + 1) * ε := by linarith

/-- **The error** after `k` roundings. -/
theorem Close.abs_sub_le (h : Close ε k x y) (hε : 0 ≤ ε) (hy : 0 ≤ y) (hk : 4 * k * ε ≤ 1) :
    |x - y| ≤ y * (4 * k * ε) := by
  have hkε : 0 ≤ (k : K) * ε := by positivity
  have hpow := one_add_pow_le (k := k) hε (by linarith)
  have hpow0 : 0 < (1 + ε) ^ k := by positivity
  have hx : 0 ≤ x := nonneg_of_mul_nonneg_left (hy.trans h.ge) hpow0
  have hle : x ≤ y * (1 + 2 * k * ε) := h.le.trans (mul_le_mul_of_nonneg_left hpow hy)
  have hge : y ≤ x * (1 + 2 * k * ε) := h.ge.trans (mul_le_mul_of_nonneg_left hpow hx)
  have hxε : x * (2 * k * ε) ≤ y * (1 + 2 * k * ε) * (2 * k * ε) :=
    mul_le_mul_of_nonneg_right hle (by linarith)
  have hyε : 0 ≤ y * (k * ε) := mul_nonneg hy hkε
  have hsq : y * (k * ε) * (4 * k * ε) ≤ y * (k * ε) * 1 := mul_le_mul_of_nonneg_left hk hyε
  have hexpand : y * (1 + 2 * k * ε) * (2 * k * ε) =
      2 * (y * (k * ε)) + y * (k * ε) * (4 * k * ε) := by ring
  have hle' : x ≤ y + 2 * (y * (k * ε)) := hle.trans_eq (by ring)
  have hge' : y ≤ x + x * (2 * k * ε) := hge.trans_eq (by ring)
  have herror : y * (4 * k * ε) = 4 * (y * (k * ε)) := by ring
  rw [herror, abs_le]
  constructor <;> linarith

end Foundation
