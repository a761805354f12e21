import Mathlib.Data.Int.Notation
import Mathlib.Tactic.NormNum

/-!
# Integers of 64 bits

Sums and differences of `int64_t` wrap around, as on the hardware the program runs on. Where the
exact result is in range nothing is lost.

* `InI64`, `wrapI64`: the range, and a result brought into it; `wrapI64_of_inI64`;
* `wrapI64_add_left`, `wrapI64_add_right`, `wrapI64_sub`: only the last wrap counts;
* `castI64`: a cast of a floating-point number whose integer part is out of range.
-/

set_option autoImplicit false

namespace Foundation

/-- The range of `int64_t`. -/
def InI64 (x : ℤ) : Prop := -2 ^ 63 ≤ x ∧ x < 2 ^ 63

instance (x : ℤ) : Decidable (InI64 x) := by
  unfold InI64
  infer_instance

/-- The result of an `int64_t` operation whose exact result is `x`. -/
def wrapI64 (x : ℤ) : ℤ := Int.bmod x (2 ^ 64)

/-- The result of casting a number with the integer part `x`: the conversion instruction answers
with the least integer where `x` does not fit. -/
def castI64 (x : ℤ) : ℤ := if InI64 x then x else -2 ^ 63

variable {x y : ℤ}

theorem wrapI64_of_inI64 (h : InI64 x) : wrapI64 x = x := by
  obtain ⟨h₁, h₂⟩ := h
  unfold wrapI64
  rw [Int.bmod_def]
  push_cast
  split_ifs <;> omega

theorem inI64_wrapI64 (x : ℤ) : InI64 (wrapI64 x) := by
  unfold InI64 wrapI64
  rw [Int.bmod_def]
  push_cast
  split_ifs <;> omega

theorem wrapI64_add_left (x y : ℤ) : wrapI64 (wrapI64 x + y) = wrapI64 (x + y) :=
  Int.bmod_add_bmod

theorem wrapI64_add_right (x y : ℤ) : wrapI64 (x + wrapI64 y) = wrapI64 (x + y) := by
  rw [add_comm, wrapI64_add_left, add_comm]

theorem wrapI64_sub (x y : ℤ) : wrapI64 (wrapI64 x - wrapI64 y) = wrapI64 (x - y) := by
  unfold wrapI64
  rw [Int.bmod_sub_bmod, Int.sub_bmod_bmod]

theorem wrapI64_add_sub (x y : ℤ) : wrapI64 (wrapI64 (x + y) - x) = wrapI64 y := by
  rw [sub_eq_add_neg, wrapI64_add_left, ← sub_eq_add_neg, add_sub_cancel_left]

theorem wrapI64_le (h : -2 ^ 63 ≤ x) : wrapI64 x ≤ x := by
  unfold wrapI64
  rw [Int.bmod_def]
  push_cast
  split_ifs <;> omega

theorem wrapI64_of_large (h : 2 ^ 63 ≤ x) (h' : x < 2 ^ 64 + 2 ^ 63) :
    wrapI64 x = x - 2 ^ 64 := by
  unfold wrapI64
  rw [Int.bmod_def]
  push_cast
  split_ifs <;> omega

theorem wrapI64_of_small (h : x < -2 ^ 63) (h' : -2 ^ 64 - 2 ^ 63 ≤ x) :
    wrapI64 x = x + 2 ^ 64 := by
  unfold wrapI64
  rw [Int.bmod_def]
  push_cast
  split_ifs <;> omega

theorem castI64_of_inI64 (h : InI64 x) : castI64 x = x := if_pos h

theorem castI64_of_not (h : ¬ InI64 x) : castI64 x = -2 ^ 63 := if_neg h

theorem inI64_castI64 (x : ℤ) : InI64 (castI64 x) := by
  unfold castI64
  split_ifs with h
  · exact h
  · unfold InI64
    omega

theorem castI64_eq_self_iff : castI64 x = x ↔ InI64 x := by
  unfold castI64
  split_ifs with h
  · exact iff_of_true rfl h
  · refine iff_of_false (fun hx => h ?_) h
    unfold InI64
    omega

end Foundation
