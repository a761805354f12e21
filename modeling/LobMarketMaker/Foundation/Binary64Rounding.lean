import LobMarketMaker.Foundation.Binary64
import LobMarketMaker.Foundation.RelativeError
import Mathlib.Tactic.FieldSimp

/-!
# The error of the machine's doubles

Where no range is left, `binary64` gives every product, quotient and sum up to one rounding, and so
a calculation up to as many roundings as it has operations.

* `Stands`: the number for which a mantissa with residual bits stands; shifting halves it;
* `IsNormal f s y`: the unpacked float `f` is `± y` with all its bits;
  `Rounded f s x`: it is `± x`, rounded; **`round_rounded`**: rounding an integer;
* `IsNormal.mul`, `IsNormal.div`, `IsNormal.add`: one operation;
* `Approx d s k x`: the double `d` is `± x` up to `k` roundings; `Approx.mul`, `Approx.div`,
  `Approx.add`: through a calculation; `Approx.toInt`: the cast at its end;
* `Tally`: the same for a sum that starts at zero.
-/

set_option autoImplicit false

namespace Foundation

open Float.Model Float.Model.UnpackedFloat

namespace Binary64

/-! ## Residual bits -/

/-- The mantissa with its residual bits stands for `x`. -/
def Stands (em : ExtendedMantissa) (x : ℚ) : Prop :=
  ∃ r : ℚ, 0 ≤ r ∧ r < 1 / 2 ∧ (em.stickyBit = false ↔ r = 0) ∧
    x = em.mantissa + (if em.roundBit then 1 / 2 else 0) + r

variable {em : ExtendedMantissa} {x x' y y' : ℚ} {k l : ℕ}

theorem Stands.bounds (h : Stands em x) : (em.mantissa : ℚ) ≤ x ∧ x < em.mantissa + 1 := by
  obtain ⟨r, h0, h1, -, rfl⟩ := h
  split_ifs <;> constructor <;> linarith

theorem stands_exact (m : ℕ) : Stands ⟨m, false, false⟩ m :=
  ⟨0, le_refl _, by norm_num, iff_of_true rfl rfl, by simp⟩

/-- **The remainder of a division**, in the residual bits. -/
theorem stands_fraction (q : ℕ) {num den : ℕ} (h : num < den) :
    Stands (.ofMantissaAndAccuracy q (accuracyOfFraction num den)) (q + num / den) := by
  have hden : (0 : ℚ) < den := by exact_mod_cast (Nat.zero_le num).trans_lt h
  have hlt : (num : ℚ) < den := by exact_mod_cast h
  unfold accuracyOfFraction
  by_cases h0 : num = 0
  · rw [if_pos h0]
    refine ⟨0, le_refl _, by norm_num, iff_of_true rfl rfl, ?_⟩
    simp [h0, ExtendedMantissa.ofMantissaAndAccuracy]
  · have hnum : (0 : ℚ) < num := by exact_mod_cast Nat.pos_of_ne_zero h0
    rw [if_neg h0]
    cases hc : compare (2 * num) den with
    | lt =>
      have hhalf : (2 * num : ℚ) < den := by exact_mod_cast compare_lt_iff_lt.mp hc
      refine ⟨num / den, by positivity, by rw [div_lt_div_iff₀ hden two_pos]; linarith, ?_, ?_⟩
      · exact iff_of_false Bool.noConfusion (div_pos hnum hden).ne'
      · simp [ExtendedMantissa.ofMantissaAndAccuracy]
    | eq =>
      have hhalf : (2 * num : ℚ) = den := by exact_mod_cast compare_eq_iff_eq.mp hc
      refine ⟨0, le_refl _, by norm_num, iff_of_true rfl rfl, ?_⟩
      have hdiv : (num : ℚ) / den = 1 / 2 := by
        rw [div_eq_div_iff hden.ne' two_ne_zero]
        linarith
      simp [ExtendedMantissa.ofMantissaAndAccuracy, hdiv]
    | gt =>
      have hhalf : (den : ℚ) < 2 * num := by exact_mod_cast compare_gt_iff_gt.mp hc
      have hlow : (1 : ℚ) / 2 < num / den := by rw [div_lt_div_iff₀ two_pos hden]; linarith
      have hhigh : (num : ℚ) / den < 1 := (div_lt_one hden).mpr hlt
      refine ⟨num / den - 1 / 2, by linarith, by linarith, ?_, ?_⟩
      · exact iff_of_false Bool.noConfusion (sub_pos.mpr hlow).ne'
      · simp only [ExtendedMantissa.ofMantissaAndAccuracy, if_true]
        ring

/-- **Shifting by one bit** halves. -/
theorem Stands.shiftRightOne (h : Stands em x) : Stands em.shiftRightOne (x / 2) := by
  obtain ⟨r, h0, h1, hr, rfl⟩ := h
  obtain ⟨m, b, t⟩ := em
  have hm : (m : ℚ) = 2 * (m / 2 : ℕ) + (m % 2 : ℕ) := by exact_mod_cast (Nat.div_add_mod m 2).symm
  dsimp only at hr
  refine ⟨(if b then 1 / 4 else 0) + r / 2, ?_, ?_, ?_, ?_⟩
  · split_ifs <;> linarith
  · split_ifs <;> linarith
  · show (b || t) = false ↔ _
    cases b with
    | true => exact iff_of_false Bool.noConfusion (by simp only [if_true]; linarith)
    | false =>
      rw [Bool.false_or, hr]
      simp
  · have hbit : (if (m % 2 != 0) = true then (1 : ℚ) / 2 else 0) = (m % 2 : ℕ) / 2 := by
      rcases Nat.mod_two_eq_zero_or_one m with h2 | h2 <;> rw [h2] <;> simp
    show ((m : ℚ) + (if b then 1 / 2 else 0) + r) / 2 =
      (m / 2 : ℕ) + (if (m % 2 != 0) = true then 1 / 2 else 0) + ((if b then 1 / 4 else 0) + r / 2)
    rw [hbit, hm]
    split_ifs <;> ring

theorem Stands.shiftRight (h : Stands em x) (k : ℕ) : Stands (em >>> k) (x / 2 ^ k) := by
  show Stands (Nat.repeat ExtendedMantissa.shiftRightOne k em) _
  induction k with
  | zero =>
    rw [pow_zero, div_one]
    exact h
  | succ k ih =>
    rw [pow_succ, ← div_div]
    exact ih.shiftRightOne

/-- **Rounding** is off by at most one half. -/
theorem Stands.abs_roundedMantissa_sub_le (h : Stands em x) :
    |(em.roundedMantissa : ℚ) - x| ≤ 1 / 2 := by
  obtain ⟨r, h0, h1, hr, rfl⟩ := h
  obtain ⟨m, b, t⟩ := em
  dsimp only at hr
  rw [abs_le]
  cases b with
  | false =>
    have hm : ExtendedMantissa.roundedMantissa ⟨m, false, t⟩ = m := by cases t <;> rfl
    simp only [hm, Bool.false_eq_true, if_false]
    constructor <;> linarith
  | true =>
    cases t with
    | false =>
      have hm : ExtendedMantissa.roundedMantissa ⟨m, true, false⟩ = m + m % 2 := rfl
      have h2 : ((m % 2 : ℕ) : ℚ) ≤ 1 := by exact_mod_cast Nat.le_of_lt_succ (Nat.mod_lt m two_pos)
      have h2' : (0 : ℚ) ≤ (m % 2 : ℕ) := Nat.cast_nonneg _
      rw [hm, hr.mp rfl]
      push_cast at h2 h2' ⊢
      simp only [if_true]
      constructor <;> linarith
    | true =>
      have hm : ExtendedMantissa.roundedMantissa ⟨m, true, true⟩ = m + 1 := rfl
      rw [hm]
      push_cast
      simp only [if_true]
      constructor <;> linarith

/-! ## One rounding -/

/-- The relative error of an operation, as a factor. -/
def epsilon : ℚ := 2 * (1 / 2 ^ 53)

theorem epsilon_nonneg : 0 ≤ epsilon := by
  unfold epsilon
  positivity

/-- The float is `± y`, with all its bits. -/
inductive IsNormal : UnpackedFloat → Sign → ℚ → Prop
  | mk (s : Sign) (m : ℕ) (e : ℤ) (h : Normal m) (lo : -1074 ≤ e) (hi : e ≤ 971) :
      IsNormal (.finite s m e h.pos) s (m * 2 ^ e)

/-- A range in which every float has all its bits. -/
def InRange (x : ℚ) : Prop := (2 : ℚ) ^ (-1000 : ℤ) ≤ x ∧ x ≤ 2 ^ (1000 : ℤ)

theorem InRange.pos (h : InRange x) : 0 < x := (zpow_pos two_pos _).trans_le h.1

variable {f g : UnpackedFloat} {s s' : Sign} {M : ℕ} {e : ℤ} {acc : Accuracy}

theorem IsNormal.pos (h : IsNormal f s y) : 0 < y := by
  cases h with
  | mk s m e hm lo hi => exact mul_pos (by exact_mod_cast hm.pos) (zpow_pos two_pos _)

theorem IsNormal.unpack_pack (h : IsNormal f s y) : (Float.Model.pack f).unpack = f := by
  cases h with
  | mk s m e hm lo hi => exact unpack_pack_finite hm lo hi s

theorem mantissa_ofMantissaAndAccuracy (M : ℕ) (acc : Accuracy) :
    (ExtendedMantissa.ofMantissaAndAccuracy M acc).mantissa = M := by
  rcases acc with _ | _ | _ | _ <;> rfl

theorem log2_bounds (hx : Stands (.ofMantissaAndAccuracy M acc) x) (hM : M ≠ 0)
    (hr : InRange (x * 2 ^ e)) : -1001 ≤ (M.log2 : ℤ) + e ∧ (M.log2 : ℤ) + e ≤ 1000 := by
  obtain ⟨hlo, hhi⟩ := hx.bounds
  rw [mantissa_ofMantissaAndAccuracy] at hlo hhi
  have hpow : (0 : ℚ) < 2 ^ e := zpow_pos two_pos _
  have hself : ((2 : ℚ) ^ M.log2) ≤ M := by exact_mod_cast Nat.log2_self_le hM
  have hsucc : (M : ℚ) + 1 ≤ 2 ^ (M.log2 + 1) := by exact_mod_cast Nat.lt_log2_self (n := M)
  have hbelow : (2 : ℚ) ^ ((M.log2 : ℤ) + e) ≤ x * 2 ^ e := by
    rw [zpow_add₀ two_ne_zero, zpow_natCast]
    exact mul_le_mul_of_nonneg_right (hself.trans hlo) hpow.le
  have habove : x * 2 ^ e < (2 : ℚ) ^ ((M.log2 : ℤ) + 1 + e) := by
    rw [zpow_add₀ two_ne_zero, ← Nat.cast_succ, zpow_natCast]
    exact mul_lt_mul_of_pos_right (hhi.trans_le hsucc) hpow
  have h₁ := (zpow_lt_zpow_iff_right₀ (one_lt_two (α := ℚ))).mp (hr.1.trans_lt habove)
  have h₂ := (zpow_le_zpow_iff_right₀ (one_lt_two (α := ℚ))).mp (hbelow.trans hr.2)
  omega

/-- **The first shift** leaves a number with `53` bits before the point. -/
theorem exists_shifted (hx : Stands (.ofMantissaAndAccuracy M acc) x) (hM : 2 ^ 52 ≤ M)
    (hr : InRange (x * 2 ^ e)) :
    ∃ em t v, shiftToTargetExponent Format.binary64 M e acc = (em, t) ∧ -1074 ≤ t ∧ t ≤ 970 ∧
      Stands em v ∧ (2 : ℚ) ^ 52 ≤ v ∧ v < 2 ^ 53 ∧ v * 2 ^ t = x * 2 ^ e := by
  have hM0 : M ≠ 0 := by omega
  obtain ⟨hlo, hhi⟩ := log2_bounds hx hM0 hr
  have hlog : 52 ≤ M.log2 := (Nat.le_log2 hM0).mpr hM
  obtain ⟨k, hk⟩ := Nat.exists_eq_add_of_le hlog
  have htarget : Format.binary64.targetExponent (totalExponent M e) = e + k :=
    targetExponent_eq (by rw [hk]; push_cast; ring) (by omega)
  have hshift : (e + k - e).toNat = k := by omega
  obtain ⟨hx₁, hx₂⟩ := hx.bounds
  rw [mantissa_ofMantissaAndAccuracy] at hx₁ hx₂
  have hpow : (0 : ℚ) < 2 ^ k := by positivity
  have hself : (2 : ℚ) ^ 52 * 2 ^ k ≤ M := by
    rw [← pow_add, ← hk]
    exact_mod_cast Nat.log2_self_le hM0
  have hsucc : (M : ℚ) + 1 ≤ 2 ^ 53 * 2 ^ k := by
    have hlt := Nat.lt_log2_self (n := M)
    rw [← pow_add, show 53 + k = M.log2 + 1 by omega]
    exact_mod_cast hlt
  refine ⟨ExtendedMantissa.ofMantissaAndAccuracy M acc >>> k, e + k, x / 2 ^ k, ?_, by omega, by omega,
    hx.shiftRight k, ?_, ?_, ?_⟩
  · unfold shiftToTargetExponent shiftToExponent
    dsimp only
    rw [htarget, hshift]
  · exact (le_div_iff₀ hpow).mpr (hself.trans hx₁)
  · exact (div_lt_iff₀ hpow).mpr (hx₂.trans_le hsucc)
  · rw [zpow_add₀ two_ne_zero, zpow_natCast]
    field_simp

/-- The float is `± x`, rounded to a multiple of a power of two. -/
def Rounded (f : UnpackedFloat) (s : Sign) (x : ℚ) : Prop :=
  ∃ (R : ℕ) (t : ℤ), IsNormal f s (R * 2 ^ t) ∧ |R * 2 ^ t - x| ≤ 2 ^ t / 2 ∧
    |R * 2 ^ t - x| ≤ x * (1 / 2 ^ 53)

theorem Rounded.close (h : Rounded f s x) (hx : 0 ≤ x) :
    ∃ y, IsNormal f s y ∧ Close epsilon 1 y x := by
  obtain ⟨R, t, hn, -, herror⟩ := h
  exact ⟨_, hn, .of_abs_sub_le hx (by norm_num) (by norm_num) herror⟩

/-- **Rounding** a number with at least `53` bits. -/
theorem roundWithAccuracy_rounded (hx : Stands (.ofMantissaAndAccuracy M acc) x) (hM : 2 ^ 52 ≤ M)
    (hr : InRange (x * 2 ^ e)) (s : Sign) :
    Rounded (roundWithAccuracy Format.binary64 s M e acc) s (x * 2 ^ e) := by
  obtain ⟨em, t, v, hshift, lo, hi, hv, hv₁, hv₂, hvalue⟩ := exists_shifted hx hM hr
  have herror := hv.abs_roundedMantissa_sub_le
  have hpow : (0 : ℚ) < 2 ^ t := zpow_pos two_pos _
  have hscaled : |(em.roundedMantissa : ℚ) * 2 ^ t - x * 2 ^ e| =
      |(em.roundedMantissa : ℚ) - v| * 2 ^ t := by
    rw [← hvalue, ← sub_mul, abs_mul, abs_of_pos hpow]
  have hhalf : |(em.roundedMantissa : ℚ) - v| * 2 ^ t ≤ 2 ^ t / 2 :=
    (mul_le_mul_of_nonneg_right herror hpow.le).trans_eq (by ring)
  have hrel : |(em.roundedMantissa : ℚ) - v| * 2 ^ t ≤ x * 2 ^ e * (1 / 2 ^ 53) := by
    rw [← hvalue, mul_right_comm]
    exact mul_le_mul_of_nonneg_right (herror.trans (by linarith)) hpow.le
  rw [← hscaled] at hhalf hrel
  obtain ⟨h₁, h₂⟩ := abs_le.mp herror
  have hlow : 2 ^ 52 ≤ em.roundedMantissa := by
    have : ((2 ^ 52 : ℕ) : ℚ) < ((em.roundedMantissa + 1 : ℕ) : ℚ) := by
      push_cast
      linarith
    exact Nat.lt_succ_iff.mp (by exact_mod_cast this)
  have hhigh : em.roundedMantissa ≤ 2 ^ 53 := by
    have : ((em.roundedMantissa : ℕ) : ℚ) < ((2 ^ 53 + 1 : ℕ) : ℚ) := by
      push_cast
      linarith
    exact Nat.lt_succ_iff.mp (by exact_mod_cast this)
  refine ⟨_, t, ?_, hhalf, hrel⟩
  unfold roundWithAccuracy
  rw [hshift]
  dsimp only
  rcases hhigh.lt_or_eq with hlt | heq
  · have hn : Normal em.roundedMantissa := ⟨hlow, hlt⟩
    have hagain := shiftToTargetExponent_exact hn 0 (add_zero t) lo
    rw [pow_zero, mul_one] at hagain
    rw [hagain, dif_neg hn.pos.ne']
    exact .mk s _ t hn lo (by omega)
  · -- the mantissa has run over
    have hn : Normal (2 ^ 52) := ⟨le_refl _, by norm_num⟩
    have hagain := shiftToTargetExponent_exact hn 1 (e := t) rfl (by omega)
    have hsame : ((em.roundedMantissa : ℕ) : ℚ) * 2 ^ t = (2 ^ 52 : ℕ) * 2 ^ (t + 1) := by
      rw [heq, zpow_add_one₀ two_ne_zero]
      push_cast
      ring
    rw [hsame, heq, show (2 : ℕ) ^ 53 = 2 ^ 52 * 2 ^ 1 from rfl, hagain, dif_neg hn.pos.ne']
    exact .mk s _ (t + 1) hn (by omega) (by omega)

/-! ## One operation -/

theorem IsNormal.mul (hf : IsNormal f s y) (hg : IsNormal g s' y') (hr : InRange (y * y')) :
    Rounded (UnpackedFloat.mul Format.binary64 f g) (s * s') (y * y') := by
  cases hf with
  | mk s m e h lo hi =>
    cases hg with
    | mk s' m' e' h' lo' hi' =>
      have hvalue : (m : ℚ) * 2 ^ e * (m' * 2 ^ e') = (m * m' : ℕ) * 2 ^ (e + e') := by
        rw [zpow_add₀ two_ne_zero]
        push_cast
        ring
      have hbits : 2 ^ 52 ≤ m * m' := h.1.trans (Nat.le_mul_of_pos_right m h'.pos)
      rw [hvalue] at hr ⊢
      have hstands : Stands (.ofMantissaAndAccuracy (m * m') .exact) ((m * m' : ℕ) : ℚ) :=
        stands_exact (m * m')
      exact roundWithAccuracy_rounded hstands hbits hr (s * s')

theorem totalExponent_normal {m : ℕ} (h : Normal m) (e : ℤ) : totalExponent m e = 53 + e := by
  unfold totalExponent
  rw [h.log2]
  rfl

theorem divCore_eq {m m' : ℕ} (h : Normal m) (h' : Normal m') {e e' : ℤ} (hexp : -1001 < e - e') :
    divCore Format.binary64 m e m' e' =
      (m * 2 ^ 53 / m', e - e' - 53, accuracyOfFraction (m * 2 ^ 53 % m') m') := by
  have htarget : min (e - e') (Format.binary64.targetExponent
      (totalExponent m e - totalExponent m' e')) = e - e' - 53 := by
    have hmin : Format.binary64.minExponent = -1074 := rfl
    have hbits : (Format.binary64.mantissaBits : ℤ) = 53 := rfl
    rw [totalExponent_normal h, totalExponent_normal h', Format.targetExponent, hmin, hbits]
    omega
  have hshift : (e - e' - (e - e' - 53)).toNat = 53 := by omega
  unfold divCore
  dsimp only
  rw [htarget, hshift, Nat.shiftLeft_eq]

theorem div_add_mod_div (a : ℕ) {b : ℕ} (hb : 0 < b) :
    ((a / b : ℕ) : ℚ) + (a % b : ℕ) / b = a / b := by
  have hb' : (0 : ℚ) < b := by exact_mod_cast hb
  have hmod : ((b * (a / b) + a % b : ℕ) : ℚ) = a := by rw [Nat.div_add_mod]
  push_cast at hmod
  rw [eq_div_iff hb'.ne', add_mul, div_mul_cancel₀ _ hb'.ne', mul_comm]
  exact hmod

theorem IsNormal.div (hf : IsNormal f s y) (hg : IsNormal g s' y') (hr : InRange (y / y')) :
    Rounded (UnpackedFloat.div Format.binary64 f g) (s / s') (y / y') := by
  cases hf with
  | mk s m e h lo hi =>
    cases hg with
    | mk s' m' e' h' lo' hi' =>
      have hm' : (0 : ℚ) < m' := by exact_mod_cast h'.pos
      have hpow : (0 : ℚ) < 2 ^ (e - e') := zpow_pos two_pos _
      have hquot : (m : ℚ) * 2 ^ e / (m' * 2 ^ e') = m / m' * 2 ^ (e - e') := by
        rw [zpow_sub₀ two_ne_zero]
        field_simp
      rw [hquot] at hr ⊢
      -- the quotient of the mantissas is about one, so that of the powers is in range as well
      have hratio : (m : ℚ) / m' < 2 := by
        rw [div_lt_iff₀ hm']
        have h₁ : (m : ℚ) < 2 ^ 53 := by exact_mod_cast h.2
        have h₂ : (2 : ℚ) ^ 52 ≤ m' := by exact_mod_cast h'.1
        linarith
      have hexp : -1000 < e - e' + 1 := by
        refine (zpow_lt_zpow_iff_right₀ (one_lt_two (α := ℚ))).mp ?_
        rw [zpow_add_one₀ two_ne_zero, mul_comm]
        exact hr.1.trans_lt (mul_lt_mul_of_pos_right hratio hpow)
      have hstands := stands_fraction (m * 2 ^ 53 / m') (Nat.mod_lt (m * 2 ^ 53) h'.pos)
      have hbits : 2 ^ 52 ≤ m * 2 ^ 53 / m' := by
        have h₁ := h.1
        have h₂ := h'.2
        rw [Nat.le_div_iff_mul_le h'.pos]
        omega
      have hvalue : (m : ℚ) / m' * 2 ^ (e - e') =
          ((m * 2 ^ 53 : ℕ) : ℚ) / m' * 2 ^ (e - e' - 53) := by
        have hsplit : (2 : ℚ) ^ (e - e') = 2 ^ 53 * 2 ^ (e - e' - 53) := by
          rw [← zpow_natCast, ← zpow_add₀ two_ne_zero]
          congr 1
          push_cast
          ring
        rw [hsplit]
        push_cast
        ring
      have hdiv : UnpackedFloat.div Format.binary64 (.finite s m e h.pos) (.finite s' m' e' h'.pos) =
          roundWithAccuracy Format.binary64 (s / s') (divCore Format.binary64 m e m' e').1
            (divCore Format.binary64 m e m' e').2.1 (divCore Format.binary64 m e m' e').2.2 := rfl
      rw [div_add_mod_div _ h'.pos] at hstands
      rw [hvalue] at hr ⊢
      rw [hdiv, divCore_eq h h' (by omega)]
      exact roundWithAccuracy_rounded hstands hbits hr (s / s')

/-- **Rounding an integer** in units of `2 ^ e`. -/
theorem round_rounded {M : ℕ} (hM : M ≠ 0) (hr : InRange (M * 2 ^ e)) (s : Sign) :
    Rounded (UnpackedFloat.round Format.binary64 s M e) s (M * 2 ^ e) := by
  have hexact : Stands (.ofMantissaAndAccuracy M .exact) M := stands_exact M
  have hlog := (log2_bounds hexact hM hr).1
  have htarget : Format.binary64.targetExponent (totalExponent M e) = M.log2 + e - 52 :=
    targetExponent_eq (by ring) (by omega)
  have hshift : (e - (M.log2 + e - 52)).toNat = 52 - M.log2 := by omega
  have hround : UnpackedFloat.round Format.binary64 s M e = roundWithAccuracy Format.binary64 s
      (M * 2 ^ (52 - M.log2)) (e - (52 - M.log2 : ℕ)) .exact := by
    unfold UnpackedFloat.round decreaseExponent
    dsimp only
    rw [htarget, hshift, Nat.shiftLeft_eq]
  have hbits : 2 ^ 52 ≤ M * 2 ^ (52 - M.log2) :=
    calc 2 ^ 52 ≤ 2 ^ (M.log2 + (52 - M.log2)) := Nat.pow_le_pow_right two_pos (by omega)
      _ = 2 ^ M.log2 * 2 ^ (52 - M.log2) := pow_add _ _ _
      _ ≤ M * 2 ^ (52 - M.log2) := Nat.mul_le_mul_right _ (Nat.log2_self_le hM)
  have hvalue : ((M * 2 ^ (52 - M.log2) : ℕ) : ℚ) * 2 ^ (e - (52 - M.log2 : ℕ)) = M * 2 ^ e := by
    rw [zpow_sub₀ two_ne_zero, zpow_natCast, Nat.cast_mul, Nat.cast_pow, Nat.cast_two]
    field_simp
  have hstands : Stands (.ofMantissaAndAccuracy (M * 2 ^ (52 - M.log2)) .exact)
      ((M * 2 ^ (52 - M.log2) : ℕ) : ℚ) := stands_exact _
  rw [← hvalue] at hr ⊢
  rw [hround]
  exact roundWithAccuracy_rounded hstands hbits hr s

theorem normalize_apply {M : ℕ} (hM : 0 < M) (s : Sign) (e : ℤ) (z : Sign) :
    UnpackedFloat.normalize Format.binary64 (s.apply M) e z =
      UnpackedFloat.round Format.binary64 s M e := by
  have hpos : (0 : ℤ) < M := by exact_mod_cast hM
  unfold UnpackedFloat.normalize
  cases s with
  | positive =>
    show (match compare (M : ℤ) 0 with | .lt => _ | .eq => _ | .gt => _) = _
    rw [compare_gt_iff_gt.mpr hpos]
    rfl
  | negative =>
    show (match compare (-(M : ℤ)) 0 with | .lt => _ | .eq => _ | .gt => _) = _
    rw [compare_lt_iff_lt.mpr (neg_lt_zero.mpr hpos)]
    show UnpackedFloat.round Format.binary64 .negative (- -(M : ℤ)).toNat e = _
    rw [neg_neg, Int.toNat_natCast]

theorem decreaseExponent_value (m : ℕ) {e t : ℤ} (h : t ≤ e) :
    ((decreaseExponent m e t).1 : ℚ) * 2 ^ t = m * 2 ^ e := by
  obtain ⟨k, rfl⟩ : ∃ k : ℕ, e = t + k := ⟨(e - t).toNat, by omega⟩
  have hk : (t + k - t).toNat = k := by omega
  unfold decreaseExponent
  dsimp only
  rw [hk, Nat.shiftLeft_eq, zpow_add₀ two_ne_zero, zpow_natCast]
  push_cast
  ring

theorem le_decreaseExponent (m : ℕ) (e t : ℤ) : m ≤ (decreaseExponent m e t).1 := by
  unfold decreaseExponent
  dsimp only
  rw [Nat.shiftLeft_eq]
  exact Nat.le_mul_of_pos_right m (Nat.two_pow_pos _)

theorem apply_add_apply (s : Sign) (a b : ℕ) : s.apply a + s.apply b = s.apply (a + b : ℕ) := by
  cases s
  · show -(a : ℤ) + -(b : ℤ) = -((a + b : ℕ) : ℤ)
    push_cast
    ring
  · exact (Nat.cast_add a b).symm

/-- **A sum** of two floats with the same sign. -/
theorem IsNormal.add (hf : IsNormal f s y) (hg : IsNormal g s y') (hr : InRange (y + y')) :
    Rounded (UnpackedFloat.add Format.binary64 f g) s (y + y') := by
  cases hf with
  | mk s m e h lo hi =>
    cases hg with
    | mk _ m' e' h' lo' hi' =>
      have hsum : UnpackedFloat.add Format.binary64 (.finite s m e h.pos)
          (.finite s m' e' h'.pos) = UnpackedFloat.normalize Format.binary64
            (s.apply (decreaseExponent m e (min e e')).1 +
              s.apply (decreaseExponent m' e' (min e e')).1) (min e e') .positive := rfl
      have hvalue := decreaseExponent_value m (min_le_left e e')
      have hvalue' := decreaseExponent_value m' (min_le_right e e')
      have hle := le_decreaseExponent m e (min e e')
      rw [hsum, apply_add_apply]
      generalize (decreaseExponent m e (min e e')).1 = a at hvalue hle ⊢
      generalize (decreaseExponent m' e' (min e e')).1 = b at hvalue' ⊢
      have hpos : 0 < a + b := (h.pos.trans_le hle).trans_le (Nat.le_add_right a b)
      have htotal : (m : ℚ) * 2 ^ e + m' * 2 ^ e' = (a + b : ℕ) * 2 ^ min e e' := by
        rw [← hvalue, ← hvalue', Nat.cast_add, add_mul]
      rw [htotal] at hr ⊢
      rw [normalize_apply hpos]
      exact round_rounded hpos.ne' hr s

theorem IsNormal.toInt (hf : IsNormal f s y) (lo hi : ℤ) : f.toInt lo hi = s.apply ⌊y⌋ := by
  cases hf with
  | mk s m e h lo' hi' =>
    obtain ⟨a, k, hdecrease, hvalue⟩ : ∃ a k : ℕ, decreaseExponent m e 0 = (a, -(k : ℤ)) ∧
        (a : ℚ) / 2 ^ k = m * 2 ^ e := by
      rcases le_total 0 e with he | he
      · have hexp : e - e.toNat = -((0 : ℕ) : ℤ) := by omega
        refine ⟨(decreaseExponent m e 0).1, 0, Prod.ext rfl ?_, ?_⟩
        · show e - ((e - 0).toNat : ℤ) = _
          rw [sub_zero, hexp]
        · rw [pow_zero, div_one, ← decreaseExponent_value m he, zpow_zero, mul_one]
      · obtain ⟨k, rfl⟩ : ∃ k : ℕ, e = -(k : ℤ) := ⟨(-e).toNat, by omega⟩
        have hshift : (-(k : ℤ) - 0).toNat = 0 := by omega
        refine ⟨m, k, ?_, ?_⟩
        · unfold decreaseExponent
          dsimp only
          rw [hshift, Nat.shiftLeft_zero, Nat.cast_zero, sub_zero]
        · rw [zpow_neg, zpow_natCast, div_eq_mul_inv]
    have hshift : (0 - -(k : ℤ)).toNat = k := by omega
    have hstands := (stands_exact a).shiftRight k
    have hfloor : ((⟨a, false, false⟩ : ExtendedMantissa) >>> k).mantissa = ⌊(m : ℚ) * 2 ^ e⌋ := by
      rw [← hvalue, eq_comm, Int.floor_eq_iff]
      exact hstands.bounds
    show roundToInt s m e = _
    unfold roundToInt shiftToExponent
    dsimp only
    rw [hdecrease]
    dsimp only
    rw [hshift, ← hfloor]
    rfl

/-! ## A calculation -/

/-- The double is `± x` up to `k` roundings. -/
def Approx (d : Float.Model) (s : Sign) (k : ℕ) (x : ℚ) : Prop :=
  ∃ y, IsNormal d.unpack s y ∧ Close epsilon k y x

/-- Exact results that stay in range when they are rounded. -/
def Moderate (x : ℚ) : Prop := (2 : ℚ) ^ (-999 : ℤ) ≤ x ∧ x ≤ 2 ^ (999 : ℤ)

variable {a b : Float.Model}

theorem Moderate.pos (h : Moderate x) : 0 < x := (zpow_pos two_pos _).trans_le h.1

theorem Moderate.inRange (h : Moderate x) (hy : Close epsilon k y x) (hk : k ≤ 2 ^ 50) :
    InRange y := by
  have hsmall : 2 * (k : ℚ) * epsilon ≤ 1 := by
    have : (k : ℚ) ≤ 2 ^ 50 := by exact_mod_cast hk
    unfold epsilon
    linarith
  have hpow : (1 + epsilon) ^ k ≤ 2 := (one_add_pow_le epsilon_nonneg hsmall).trans (by linarith)
  have hy0 := hy.pos_of_pos epsilon_nonneg h.pos
  have hle : y ≤ x * 2 := hy.le.trans (mul_le_mul_of_nonneg_left hpow h.pos.le)
  have hge : x ≤ y * 2 := hy.ge.trans (mul_le_mul_of_nonneg_left hpow hy0.le)
  have hhalf : (2 : ℚ) ^ (-1000 : ℤ) * 2 = 2 ^ (-999 : ℤ) := (zpow_add_one₀ two_ne_zero _).symm
  have htwice : (2 : ℚ) ^ (999 : ℤ) * 2 = 2 ^ (1000 : ℤ) := (zpow_add_one₀ two_ne_zero _).symm
  constructor
  · refine le_of_mul_le_mul_right ?_ (two_pos (α := ℚ))
    rw [hhalf]
    exact h.1.trans hge
  · rw [← htwice]
    exact hle.trans (mul_le_mul_of_nonneg_right h.2 two_pos.le)

theorem Approx.pos (h : Approx a s k x) : 0 < x := by
  obtain ⟨y, hy, hc⟩ := h
  exact hc.symm.pos_of_pos epsilon_nonneg hy.pos

theorem Approx.mono (h : Approx a s k x) (hkl : k ≤ l) : Approx a s l x := by
  have hx := h.pos
  obtain ⟨y, hy, hc⟩ := h
  exact ⟨y, hy, hc.mono epsilon_nonneg hy.pos.le hx.le hkl⟩

theorem approx_pack (h : Rounded f s y) (hy : 0 ≤ y) (hc : Close epsilon k y x) :
    Approx (Float.Model.pack f) s (k + 1) x := by
  obtain ⟨z, hz, hzy⟩ := h.close hy
  refine ⟨z, hz.unpack_pack.symm ▸ hz, ?_⟩
  rw [add_comm]
  exact hzy.trans hc epsilon_nonneg

theorem Approx.mul (ha : Approx a s k x) (hb : Approx b s' l x') (hx : Moderate (x * x'))
    (hkl : k + l ≤ 2 ^ 50) : Approx (a * b) (s * s') (k + l + 1) (x * x') := by
  have hx0 := ha.pos
  have hx0' := hb.pos
  obtain ⟨y, hy, hc⟩ := ha
  obtain ⟨y', hy', hc'⟩ := hb
  have hclose := hc.mul hc' epsilon_nonneg hy.pos.le hx0.le hy'.pos.le hx0'.le
  exact approx_pack (hy.mul hy' (hx.inRange hclose hkl)) (mul_pos hy.pos hy'.pos).le hclose

theorem Approx.div (ha : Approx a s k x) (hb : Approx b s' l x') (hx : Moderate (x / x'))
    (hkl : k + l ≤ 2 ^ 50) : Approx (a / b) (s / s') (k + l + 1) (x / x') := by
  have hx0 := ha.pos
  have hx0' := hb.pos
  obtain ⟨y, hy, hc⟩ := ha
  obtain ⟨y', hy', hc'⟩ := hb
  have hclose := hc.div hc' epsilon_nonneg hy.pos.le hx0.le hy'.pos hx0'
  exact approx_pack (hy.div hy' (hx.inRange hclose hkl)) (div_pos hy.pos hy'.pos).le hclose

theorem Approx.add (ha : Approx a s k x) (hb : Approx b s k x') (hx : Moderate (x + x'))
    (hk : k ≤ 2 ^ 50) : Approx (a + b) s (k + 1) (x + x') := by
  obtain ⟨y, hy, hc⟩ := ha
  obtain ⟨y', hy', hc'⟩ := hb
  have hclose := hc.add hc'
  exact approx_pack (hy.add hy' (hx.inRange hclose hk)) (add_pos hy.pos hy'.pos).le hclose

theorem Approx.neg (ha : Approx a s k x) : Approx (-a) (-s) k x := by
  obtain ⟨y, hy, hc⟩ := ha
  have hneg : IsNormal a.unpack.neg (-s) y := by
    generalize a.unpack = f at hy
    cases hy with
    | mk s m e h lo hi => exact .mk (-s) m e h lo hi
  exact ⟨y, hneg.unpack_pack.symm ▸ hneg, hc⟩

theorem Approx.zero_add (hb : Approx b s k x) (ha : a.unpack = .zero s') : Approx (a + b) s k x := by
  obtain ⟨y, hy, hc⟩ := hb
  have hadd : UnpackedFloat.add Format.binary64 a.unpack b.unpack = b.unpack := by
    rw [ha]
    generalize b.unpack = f at hy
    cases hy with
    | mk s m e h lo hi => rfl
  refine ⟨y, ?_, hc⟩
  show IsNormal (Float.Model.pack (UnpackedFloat.add Format.binary64 a.unpack b.unpack)).unpack s y
  rw [hadd, hy.unpack_pack]
  exact hy

theorem approx_ofInt (s : Sign) {n : ℕ} (h0 : 0 < n) (hn : n ≤ 2 ^ 53) :
    Approx (Float.Model.ofInt (s.apply n)) s 0 n := by
  obtain ⟨m, j, h, hj, hvalue⟩ := exists_normal h0 hn
  have hround : UnpackedFloat.ofInt Format.binary64 (s.apply n) = .finite s m (j - 52) h.pos :=
    (normalize_apply h0 s 0 .positive).trans (round_exact (i := 52) h s hvalue.symm)
  have hnormal : IsNormal (.finite s m (j - 52) h.pos) s (m * 2 ^ ((j : ℤ) - 52)) :=
    .mk s m _ h (by omega) (by omega)
  have heq : (m : ℚ) * 2 ^ ((j : ℤ) - 52) = n := by
    have hcast : (m : ℚ) * 2 ^ j = n * 2 ^ 52 := by exact_mod_cast hvalue
    rw [zpow_sub₀ two_ne_zero, zpow_natCast, mul_div_assoc', div_eq_iff (by positivity)]
    exact hcast
  refine ⟨m * 2 ^ ((j : ℤ) - 52), ?_, heq ▸ .refl _ _⟩
  show IsNormal (Float.Model.pack (UnpackedFloat.ofInt Format.binary64 (s.apply n))).unpack s _
  rw [hround, hnormal.unpack_pack]
  exact hnormal

theorem exists_sign (i : ℤ) : i = 0 ∨ ∃ (s : Sign) (n : ℕ), 0 < n ∧ i = s.apply n := by
  rcases lt_trichotomy i 0 with h | h | h
  · exact .inr ⟨.negative, i.natAbs, by omega, show i = -(i.natAbs : ℤ) by omega⟩
  · exact .inl h
  · exact .inr ⟨.positive, i.natAbs, by omega, show i = (i.natAbs : ℤ) by omega⟩

theorem approx_ofInt_of_pos {i : ℤ} (h0 : 0 < i) (h : i ≤ 2 ^ 53) :
    Approx (Float.Model.ofInt i) .positive 0 i := by
  obtain ⟨n, rfl⟩ : ∃ n : ℕ, i = n := ⟨i.toNat, by omega⟩
  exact approx_ofInt .positive (by omega) (by omega)

/-- **The cast** at the end of a calculation. -/
theorem Approx.toInt (ha : Approx a s k x) : ∃ y, Close epsilon k y x ∧
    (y < 2 ^ 53 → Double.toInt a = s.apply ⌊y⌋) := by
  obtain ⟨y, hy, hc⟩ := ha
  refine ⟨y, hc, fun hlt => ?_⟩
  have hfloor : ⌊y⌋ < 2 ^ 53 := Int.floor_lt.mpr (by exact_mod_cast hlt)
  have hfloor0 : 0 ≤ ⌊y⌋ := Int.floor_nonneg.mpr hy.pos.le
  have hmin : Int64.minValue.toInt = -2 ^ 63 := rfl
  have hmax : Int64.maxValue.toInt = 2 ^ 63 - 1 := rfl
  have happly : -2 ^ 53 < s.apply ⌊y⌋ ∧ s.apply ⌊y⌋ < 2 ^ 53 := by
    cases s
    · show -2 ^ 53 < -⌊y⌋ ∧ -⌊y⌋ < 2 ^ 53
      omega
    · show -2 ^ 53 < ⌊y⌋ ∧ ⌊y⌋ < 2 ^ 53
      omega
  show (Int64.ofIntClamp (a.unpack.toInt _ _)).toInt = _
  rw [hy.toInt]
  exact Int64.toInt_ofIntClamp (by omega) (by omega)

/-- A sum that starts at zero: `c` up to `k` roundings, or still zero. -/
inductive Tally (k : ℕ) (d : Float.Model) : ℚ → Prop
  | zero {s : Sign} (h : d.unpack = .zero s) : Tally k d 0
  | pos {c : ℚ} (h : Approx d .positive k c) : Tally k d c

variable {d : Float.Model} {c : ℚ}

theorem Tally.mono (h : Tally k d c) (hkl : k ≤ l) : Tally l d c := by
  cases h with
  | zero h => exact .zero h
  | pos h => exact .pos (h.mono hkl)

theorem Tally.nonneg (h : Tally k d c) : 0 ≤ c := by
  cases h with
  | zero h => exact le_refl _
  | pos h => exact h.pos.le

/-- **One more term** is one more rounding. -/
theorem Tally.add (h : Tally k d c) (hb : Approx b .positive k x) (hm : Moderate (c + x))
    (hk : k ≤ 2 ^ 50) : Tally (k + 1) (d + b) (c + x) := by
  cases h with
  | zero h =>
    rw [zero_add]
    exact .pos ((hb.zero_add h).mono (Nat.le_succ k))
  | pos h => exact .pos (h.add hb hm hk)

end Binary64

end Foundation
