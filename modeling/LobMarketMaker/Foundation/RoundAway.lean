import LobMarketMaker.Foundation.Double

/-!
# Rounding half away from zero

The C++ idiom `static_cast<int64_t>(x + (x >= 0 ? 0.5 : -0.5))`, over exact rationals.

* `roundAway_of_nonneg`, `roundAway_of_neg`: the two branches as floor and ceiling;
* `toInt_mono`, `roundAway_mono`: truncation and rounding keep the order; `toInt_lt_intCast_iff`,
  `roundAway_lt_intCast_iff`: what stays below an integer;
* `abs_roundAway_sub_le`: the error is at most one half; `roundAway_eq_toInt`: rounding by what
  truncation leaves;
* `roundAway_lt`: numbers at least one apart round to different integers;
* `roundAway_lt_iff`, `roundAway_pos_iff`: positive numbers round to different integers exactly if a
  half integer separates them; `roundAway_lt_iff_of_neg_le`: so do numbers of which the greater has
  the greater absolute value.
-/

set_option autoImplicit false

namespace Foundation

/-- Rounding to the nearest integer, ties away from zero. -/
def roundAway (x : ℚ) : ℤ := toInt (x + if 0 ≤ x then 1 / 2 else -(1 / 2))

variable {x y : ℚ}

theorem toInt_neg (x : ℚ) : toInt (-x) = -toInt x := by
  show (-x).num.tdiv (-x).den = -(x.num.tdiv x.den)
  rw [Rat.num_neg_eq_neg_num, Rat.den_neg_eq_den, Int.neg_tdiv]

theorem toInt_of_nonpos (hx : x ≤ 0) : toInt x = ⌈x⌉ := by
  have h := toInt_of_nonneg (neg_nonneg.mpr hx)
  rw [toInt_neg, Int.floor_neg] at h
  exact neg_inj.mp h

/-- **Truncation** keeps the order. -/
theorem toInt_mono (h : x ≤ y) : toInt x ≤ toInt y := by
  rcases le_or_gt 0 x with hx | hx
  · rw [toInt_of_nonneg hx, toInt_of_nonneg (hx.trans h)]
    exact Int.floor_le_floor h
  · rw [toInt_of_nonpos hx.le]
    rcases le_or_gt 0 y with hy | hy
    · rw [toInt_of_nonneg hy]
      have h₁ : ⌈x⌉ ≤ 0 := Int.ceil_le.mpr (by exact_mod_cast hx.le)
      exact h₁.trans (Int.floor_nonneg.mpr hy)
    · rw [toInt_of_nonpos hy.le]
      exact Int.ceil_le_ceil h

/-- **Truncation stays below a positive integer** that the number does not reach. -/
theorem toInt_lt_intCast_iff {n : ℤ} (hn : 0 < n) : toInt x < n ↔ x < n := by
  have hn' : (1 : ℚ) ≤ n := by exact_mod_cast hn
  rcases le_or_gt 0 x with hx | hx
  · rw [toInt_of_nonneg hx, Int.floor_lt]
  · have h := toInt_mono hx.le
    rw [show (0 : ℚ) = ((0 : ℤ) : ℚ) from Int.cast_zero.symm, toInt_intCast] at h
    exact ⟨fun _ => by linarith, fun _ => by omega⟩

theorem roundAway_of_nonneg (hx : 0 ≤ x) : roundAway x = ⌊x + 1 / 2⌋ := by
  rw [roundAway, if_pos hx]
  exact toInt_of_nonneg (by linarith)

theorem roundAway_of_neg (hx : x < 0) : roundAway x = ⌈x - 1 / 2⌉ := by
  rw [roundAway, if_neg (not_le.mpr hx), ← sub_eq_add_neg]
  exact toInt_of_nonpos (by linarith)

/-- **The error** is at most one half. -/
theorem abs_roundAway_sub_le (x : ℚ) : |(roundAway x : ℚ) - x| ≤ 1 / 2 := by
  rw [abs_le]
  rcases le_or_gt 0 x with hx | hx
  · rw [roundAway_of_nonneg hx]
    have h₁ := Int.floor_le (x + 1 / 2)
    have h₂ := Int.lt_floor_add_one (x + 1 / 2)
    constructor <;> linarith
  · rw [roundAway_of_neg hx]
    have h₁ := Int.le_ceil (x - 1 / 2)
    have h₂ := Int.ceil_lt_add_one (x - 1 / 2)
    constructor <;> linarith

/-- **Rounding after truncation**: the rest decides. -/
theorem roundAway_eq_toInt (x : ℚ) : roundAway x =
    if 1 / 2 ≤ x - toInt x then toInt x + 1
    else if x - toInt x ≤ -(1 / 2) then toInt x - 1 else toInt x := by
  rcases le_or_gt 0 x with hx | hx
  · have h₁ := Int.floor_le x
    have h₂ := Int.lt_floor_add_one x
    rw [toInt_of_nonneg hx, roundAway_of_nonneg hx]
    split_ifs with hup hdown
    · exact Int.floor_eq_iff.mpr ⟨by push_cast; linarith, by push_cast; linarith⟩
    · linarith
    · exact Int.floor_eq_iff.mpr ⟨by linarith, by linarith⟩
  · have h₁ := Int.le_ceil x
    have h₂ := Int.ceil_lt_add_one x
    rw [toInt_of_nonpos hx.le, roundAway_of_neg hx]
    split_ifs with hup hdown
    · linarith
    · exact Int.ceil_eq_iff.mpr ⟨by push_cast; linarith, by push_cast; linarith⟩
    · exact Int.ceil_eq_iff.mpr ⟨by linarith, by linarith⟩

theorem abs_sub_toInt_lt (x : ℚ) : |x - toInt x| < 1 := by
  rw [abs_lt]
  rcases le_or_gt 0 x with hx | hx
  · have h₁ := Int.floor_le x
    have h₂ := Int.lt_floor_add_one x
    rw [toInt_of_nonneg hx]
    constructor <;> linarith
  · have h₁ := Int.le_ceil x
    have h₂ := Int.ceil_lt_add_one x
    rw [toInt_of_nonpos hx.le]
    constructor <;> linarith

/-- **Rounding** keeps the order. -/
theorem roundAway_mono (h : x ≤ y) : roundAway x ≤ roundAway y := by
  refine toInt_mono ?_
  split_ifs <;> linarith

theorem roundAway_intCast (n : ℤ) : roundAway n = n := by
  have h := abs_le.mp (abs_roundAway_sub_le (n : ℚ))
  have h₁ : ((roundAway n : ℤ) : ℚ) < ((n + 1 : ℤ) : ℚ) := by
    push_cast
    linarith [h.2]
  have h₂ : ((n - 1 : ℤ) : ℚ) < (roundAway n : ℤ) := by
    push_cast
    linarith [h.1]
  have h₁' : roundAway n < n + 1 := by exact_mod_cast h₁
  have h₂' : n - 1 < roundAway n := by exact_mod_cast h₂
  omega

theorem roundAway_nonneg (hx : 0 ≤ x) : 0 ≤ roundAway x := by
  rw [roundAway_of_nonneg hx]
  exact Int.floor_nonneg.mpr (by linarith)

theorem roundAway_neg (x : ℚ) : roundAway (-x) = -roundAway x := by
  rcases lt_trichotomy x 0 with hx | rfl | hx
  · rw [roundAway_of_neg hx, roundAway_of_nonneg (by linarith), ← Int.floor_neg]
    congr 1
    ring
  · have h0 : roundAway 0 = 0 := by simpa using roundAway_intCast 0
    rw [neg_zero, h0, neg_zero]
  · rw [roundAway_of_nonneg hx.le, roundAway_of_neg (by linarith), ← Int.ceil_neg]
    congr 1
    ring

/-- **Rounding stays below a positive integer** up to half a unit before it. -/
theorem roundAway_lt_intCast_iff {n : ℤ} (hn : 0 < n) : roundAway x < n ↔ x < n - 1 / 2 := by
  have hn' : (1 : ℚ) ≤ n := by exact_mod_cast hn
  rcases le_or_gt 0 x with hx | hx
  · rw [roundAway_of_nonneg hx, Int.floor_lt]
    constructor <;> intro h <;> linarith
  · have h := roundAway_mono hx.le
    rw [show (0 : ℚ) = ((0 : ℤ) : ℚ) from Int.cast_zero.symm, roundAway_intCast] at h
    exact ⟨fun _ => by linarith, fun _ => by omega⟩

/-- **Numbers at least one apart** round to different integers. -/
theorem roundAway_lt (h : x + 1 ≤ y) : roundAway x < roundAway y := by
  rcases le_or_gt 0 x with hx | hx
  · rw [roundAway_of_nonneg hx, roundAway_of_nonneg (by linarith)]
    have h₁ : ⌊x + 1 / 2⌋ + 1 ≤ ⌊y + 1 / 2⌋ := by
      rw [← Int.floor_add_one]
      exact Int.floor_le_floor (by linarith)
    omega
  · rcases le_or_gt 0 y with hy | hy
    · by_cases hhalf : x ≤ -(1 / 2)
      · have h₁ : roundAway x ≤ -1 := by
          rw [roundAway_of_neg hx, Int.ceil_le]
          push_cast
          linarith
        have h₂ := roundAway_nonneg hy
        omega
      · have h₁ : roundAway x ≤ 0 := by
          rw [roundAway_of_neg hx, Int.ceil_le]
          push_cast
          linarith
        have h₂ : 1 ≤ roundAway y := by
          rw [roundAway_of_nonneg hy, Int.le_floor]
          push_cast
          linarith
        omega
    · rw [roundAway_of_neg hx, roundAway_of_neg hy]
      have h₁ : ⌈x - 1 / 2⌉ + 1 ≤ ⌈y - 1 / 2⌉ := by
        rw [← Int.ceil_add_one]
        exact Int.ceil_le_ceil (by linarith)
      omega

/-- **Positive numbers** round to a positive integer from one half on. -/
theorem roundAway_pos_iff (hx : 0 ≤ x) : 0 < roundAway x ↔ 1 / 2 ≤ x := by
  rw [roundAway_of_nonneg hx, Int.floor_pos]
  constructor <;> intro h <;> linarith

/-- **Positive numbers** round to different integers exactly if a half integer separates them. -/
theorem roundAway_lt_iff (hx : 0 ≤ x) (hxy : x ≤ y) :
    roundAway x < roundAway y ↔ ∃ k : ℤ, x < k + 1 / 2 ∧ (k : ℚ) + 1 / 2 ≤ y := by
  rw [roundAway_of_nonneg hx, roundAway_of_nonneg (hx.trans hxy)]
  constructor
  · intro h
    have h₁ := Int.lt_floor_add_one (x + 1 / 2)
    have h₂ : (⌊x + 1 / 2⌋ : ℚ) + 1 ≤ y + 1 / 2 := by
      exact_mod_cast Int.le_floor.mp (Int.add_one_le_of_lt h)
    exact ⟨⌊x + 1 / 2⌋, by linarith, by linarith⟩
  · rintro ⟨k, h₁, h₂⟩
    have h₃ : ⌊x + 1 / 2⌋ < k + 1 := Int.floor_lt.mpr (by push_cast; linarith)
    have h₄ : k + 1 ≤ ⌊y + 1 / 2⌋ := Int.le_floor.mpr (by push_cast; linarith)
    exact h₃.trans_le h₄

/-- **Numbers of which the greater has the greater absolute value** round to different integers
under the same condition. -/
theorem roundAway_lt_iff_of_neg_le (hx : -x ≤ y) (hxy : x ≤ y) :
    roundAway x < roundAway y ↔ ∃ k : ℤ, x < k + 1 / 2 ∧ (k : ℚ) + 1 / 2 ≤ y := by
  rcases le_or_gt 0 x with h0 | h0
  · exact roundAway_lt_iff h0 hxy
  have hy : 0 ≤ y := by linarith
  have hpos := roundAway_pos_iff hy
  have hneg := roundAway_pos_iff (neg_nonneg.mpr h0.le)
  have hx' := roundAway_nonneg (neg_nonneg.mpr h0.le)
  have hy' := roundAway_nonneg hy
  rw [roundAway_neg] at hneg hx'
  constructor
  · intro hlt
    -- one of the two is rounded away from zero, and then the greater one is
    have hhalf : 1 / 2 ≤ y := by
      rcases lt_or_eq_of_le hy' with h | h
      · exact hpos.mp h
      · have := hneg.mp (by omega)
        linarith
    exact ⟨0, by push_cast; linarith, by push_cast; linarith⟩
  · rintro ⟨k, hxk, hky⟩
    have hhalf : 1 / 2 ≤ y := by
      rcases le_or_gt 0 k with hk | hk
      · have : (0 : ℚ) ≤ k := by exact_mod_cast hk
        linarith
      · have : (k : ℚ) ≤ -1 := by exact_mod_cast (by omega : k ≤ -1)
        linarith
    have := hpos.mpr hhalf
    omega

end Foundation
