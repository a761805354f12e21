import Mathlib.Data.Rat.Floor
import Mathlib.Tactic.Linarith

/-!
# Floating-point arithmetic as an interface

`Double F` lists the operations of a C++ `double` that a program uses. It assumes no law, so what
is proved for every `F` holds of the machine's arithmetic, rounding included. The instance at `ℚ`
reads a double as an exact rational; the logarithm and the square root, which leave `ℚ`, stay
functions without laws (`Libm`).

* `ExactUpTo F B`, `TruncNonneg F`: the laws that results about a rounding `F` may ask for, exact
  sums of integers up to `B` and the sign of products.
-/

set_option autoImplicit false

namespace Foundation

/-- The operations of a `double`. -/
class Double (F : Type) extends Add F, Sub F, Mul F, Div F, Neg F, LT F, LE F, BEq F where
  /-- `static_cast<double>` of an integer. -/
  ofInt : ℤ → F
  /-- `static_cast<int64_t>`: truncation towards zero. -/
  toInt : F → ℤ
  /-- `std::abs`. -/
  abs : F → F
  decLt : DecidableLT F
  decLe : DecidableLE F

instance decidableLT {F : Type} [Double F] : DecidableLT F := Double.decLt

instance decidableLE {F : Type} [Double F] : DecidableLE F := Double.decLe

/-- The library functions without exact counterpart. -/
structure Libm (F : Type) where
  log : F → F
  sqrt : F → F

export Double (ofInt toInt)

section Functions

variable {F : Type} [Double F]

/-- `std::max`. -/
def fmax (a b : F) : F := if a < b then b else a

/-- `std::min`. -/
def fmin (a b : F) : F := if b < a then b else a

/-- `std::clamp`. -/
def clamp (v lo hi : F) : F := fmin (fmax v lo) hi

end Functions

/-- Sums and differences of integers up to `B` are exact as long as they stay within `B`. -/
class ExactUpTo (F : Type) [Double F] (B : ℤ) : Prop where
  toInt_add : ∀ a b : ℤ, |a| ≤ B → |b| ≤ B → |a + b| ≤ B → toInt (ofInt a + ofInt b : F) = a + b
  toInt_sub : ∀ a b : ℤ, |a| ≤ B → |b| ≤ B → |a - b| ≤ B → toInt (ofInt a + -ofInt b : F) = a - b

/-- Integers keep their sign, and a product of what is not negative truncates to what is not. -/
class TruncNonneg (F : Type) [Double F] : Prop where
  ofInt_nonneg : ∀ n : ℤ, 0 ≤ n → (ofInt 0 : F) ≤ ofInt n
  toInt_mul_nonneg : ∀ x y : F, ofInt 0 ≤ x → ofInt 0 ≤ y → 0 ≤ toInt (x * y)

/-! ### Exact rationals -/

instance : Double ℚ where
  ofInt n := n
  toInt x := x.num.tdiv x.den
  abs x := |x|
  decLt := inferInstance
  decLe := inferInstance

@[simp] theorem ofInt_rat (n : ℤ) : (ofInt n : ℚ) = n := rfl

@[simp] theorem toInt_intCast (n : ℤ) : toInt (n : ℚ) = n := by
  show (n : ℚ).num.tdiv (n : ℚ).den = n
  simp

instance (B : ℤ) : ExactUpTo ℚ B where
  toInt_add a b _ _ _ := by
    rw [ofInt_rat, ofInt_rat, ← Int.cast_add, toInt_intCast]
  toInt_sub a b _ _ _ := by
    rw [ofInt_rat, ofInt_rat, ← sub_eq_add_neg, ← Int.cast_sub, toInt_intCast]

theorem toInt_of_nonneg {x : ℚ} (hx : 0 ≤ x) : toInt x = ⌊x⌋ := by
  show x.num.tdiv x.den = ⌊x⌋
  rw [Int.tdiv_eq_ediv_of_nonneg (Rat.num_nonneg.mpr hx), Rat.floor_def']

instance : TruncNonneg ℚ where
  ofInt_nonneg n hn := by
    rw [ofInt_rat, ofInt_rat]
    exact Int.cast_le.mpr hn
  toInt_mul_nonneg x y hx hy := by
    rw [ofInt_rat, Int.cast_zero] at hx hy
    rw [toInt_of_nonneg (mul_nonneg hx hy)]
    exact Int.floor_nonneg.mpr (mul_nonneg hx hy)

theorem toInt_le {x : ℚ} {n : ℤ} (hx : 0 ≤ x) (h : x ≤ n) : toInt x ≤ n := by
  rw [toInt_of_nonneg hx]
  have : (⌊x⌋ : ℚ) ≤ n := (Int.floor_le x).trans h
  exact_mod_cast this

theorem fmax_eq_max (a b : ℚ) : fmax a b = max a b := by
  unfold fmax
  split_ifs with h
  · exact (max_eq_right h.le).symm
  · exact (max_eq_left (not_lt.mp h)).symm

theorem fmin_eq_min (a b : ℚ) : fmin a b = min a b := by
  unfold fmin
  split_ifs with h
  · exact (min_eq_right h.le).symm
  · exact (min_eq_left (not_lt.mp h)).symm

theorem clamp_eq (v lo hi : ℚ) : clamp v lo hi = min (max v lo) hi := by
  rw [clamp, fmin_eq_min, fmax_eq_max]

theorem clamp_of_mem {v lo hi : ℚ} (h₁ : lo ≤ v) (h₂ : v ≤ hi) : clamp v lo hi = v := by
  rw [clamp_eq, max_eq_left h₁, min_eq_left h₂]

end Foundation
