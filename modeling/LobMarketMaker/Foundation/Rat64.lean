import LobMarketMaker.Foundation.Int64
import LobMarketMaker.Foundation.RoundAway

/-!
# Exact numbers that are cast to 64 bits

`Rat64` computes with exact rationals, as `ℚ` does, and casts to `int64_t` as the machine does: an
integer part that does not fit becomes the least integer.

* `RoundsToI64`, `inI64_roundAway_iff`: the numbers that round to 64 bits; `inI64_toInt_iff`: those
  that are truncated to 64 bits;
* `toInt_half`: the cast that rounds half away from zero.
-/

set_option autoImplicit false

namespace Foundation

/-! ## Numbers that round to 64 bits -/

/-- The number rounds to a 64-bit integer. -/
def RoundsToI64 (x : ℚ) : Prop := -2 ^ 63 - 1 / 2 < x ∧ x < 2 ^ 63 - 1 / 2

instance (x : ℚ) : Decidable (RoundsToI64 x) := by
  unfold RoundsToI64
  infer_instance

theorem roundAway_lt_two_pow_iff (x : ℚ) : roundAway x < 2 ^ 63 ↔ x < 2 ^ 63 - 1 / 2 := by
  rw [roundAway_lt_intCast_iff (by norm_num)]
  norm_num

theorem inI64_roundAway_iff (x : ℚ) : InI64 (roundAway x) ↔ RoundsToI64 x := by
  have hlow : -2 ^ 63 ≤ roundAway x ↔ -2 ^ 63 - 1 / 2 < x := by
    have h : roundAway (-x) < 2 ^ 63 + 1 ↔ -x < 2 ^ 63 + 1 - 1 / 2 := by
      rw [roundAway_lt_intCast_iff (by norm_num)]
      norm_num
    rw [roundAway_neg] at h
    constructor
    · intro hle
      have := h.mp (by omega)
      linarith
    · intro hlt
      have := h.mpr (by linarith)
      omega
  rw [InI64, RoundsToI64, roundAway_lt_two_pow_iff, hlow]

theorem inI64_toInt_iff (x : ℚ) : InI64 (toInt x) ↔ -2 ^ 63 - 1 < x ∧ x < 2 ^ 63 := by
  have hhigh : toInt x < 2 ^ 63 ↔ x < 2 ^ 63 := by
    rw [toInt_lt_intCast_iff (by norm_num)]
    norm_num
  have hlow : -2 ^ 63 ≤ toInt x ↔ -2 ^ 63 - 1 < x := by
    have h : toInt (-x) < 2 ^ 63 + 1 ↔ -x < 2 ^ 63 + 1 := by
      rw [toInt_lt_intCast_iff (by norm_num)]
      norm_num
    rw [toInt_neg] at h
    constructor
    · intro hle
      have := h.mp (by omega)
      linarith
    · intro hlt
      have := h.mpr (by linarith)
      omega
  rw [InI64, hhigh, hlow]

theorem castI64_roundAway {x : ℚ} (h : RoundsToI64 x) : castI64 (roundAway x) = roundAway x :=
  castI64_of_inI64 ((inI64_roundAway_iff x).mpr h)

/-! ## The numbers -/

/-- A rational number with the casts of the machine. -/
@[ext] structure Rat64 where
  val : ℚ

namespace Rat64

instance : Double Rat64 where
  add x y := ⟨x.val + y.val⟩
  sub x y := ⟨x.val - y.val⟩
  mul x y := ⟨x.val * y.val⟩
  div x y := ⟨x.val / y.val⟩
  neg x := ⟨-x.val⟩
  lt x y := x.val < y.val
  le x y := x.val ≤ y.val
  beq x y := x.val == y.val
  ofInt n := ⟨n⟩
  toInt x := castI64 (toInt x.val)
  abs x := ⟨|x.val|⟩
  decLt x y := inferInstanceAs (Decidable (x.val < y.val))
  decLe x y := inferInstanceAs (Decidable (x.val ≤ y.val))

variable (x y : Rat64) (n : ℤ)

@[simp] theorem val_add : (x + y).val = x.val + y.val := rfl

@[simp] theorem val_sub : (x - y).val = x.val - y.val := rfl

@[simp] theorem val_mul : (x * y).val = x.val * y.val := rfl

@[simp] theorem val_div : (x / y).val = x.val / y.val := rfl

@[simp] theorem val_neg : (-x).val = -x.val := rfl

@[simp] theorem val_ofInt : (ofInt n : Rat64).val = n := rfl

theorem lt_iff : x < y ↔ x.val < y.val := Iff.rfl

theorem le_iff : x ≤ y ↔ x.val ≤ y.val := Iff.rfl

theorem toInt_eq : toInt x = castI64 (toInt x.val) := rfl

/-- **The cast that rounds** half away from zero. -/
theorem toInt_half {c : Prop} [Decidable c] (h : c ↔ 0 ≤ x.val) :
    toInt (x + if c then ofInt 1 / ofInt 2 else -(ofInt 1 / ofInt 2)) =
      castI64 (roundAway x.val) := by
  rw [toInt_eq, roundAway, val_add]
  simp only [h]
  split_ifs <;> simp

end Rat64

end Foundation
