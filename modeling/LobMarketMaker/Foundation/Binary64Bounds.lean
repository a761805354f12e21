import LobMarketMaker.Foundation.Binary64Errors
import LobMarketMaker.Foundation.Rat64

/-!
# Which numbers a double rounds into a window

The doubles have a greatest one below every bound, and `binary64` rounds to the nearest, ties to
even. So whether the rounded result of an operation stays within two doubles depends on the exact
result alone: it must not lie beyond the midpoint to the next double. This needs no restriction on
the operands: they may be subnormal, infinite or undefined.

* `number?`, `real?`: the number that a float is, if it is one;
* `Canonical`, `canonical_of_unpack`, `number?_unpack_pack`: the mantissas and exponents of doubles;
* `Nearest`, `Stands.nearest`: rounding to the nearest integer; **`exists_rounded`**: what rounding
  makes of a mantissa and an exponent;
* `Bound`, `Bound.Covers`, `Bound.le_val_iff`: the numbers that round to a bound at most;
* `Window`, **`Window.holds_add_iff`**, **`Window.holds_sub_iff`**, **`Window.holds_mul_iff`**: the
  operands whose sum, difference or product rounds into the window; `Window.holds_iff`: the doubles
  in it.
-/

set_option autoImplicit false

namespace Foundation

open Float.Model Float.Model.UnpackedFloat

namespace Binary64

/-! ## The numbers that are doubles -/

/-- The number that an unpacked float is, unless it is infinite or undefined. -/
def number? : UnpackedFloat → Option ℚ
  | .zero _ => some 0
  | .finite s m e _ => some (signed s (m * 2 ^ e))
  | _ => none

/-- The number that a double is, unless it is infinite or undefined. -/
def real? (x : Float.Model) : Option ℚ := number? x.unpack

/-- The mantissa has all its bits, or as many as the least exponent leaves it. -/
structure Canonical (m : ℕ) (e : ℤ) : Prop where
  lt : m < 2 ^ 53
  le : -1074 ≤ e
  full : 2 ^ 52 ≤ m ∨ e = -1074

variable {s : Sign} {m : ℕ} {e : ℤ}

/-- **Every double** is in this form. -/
theorem canonical_of_unpack {x : Float.Model} {hm : 0 < m} (h : x.unpack = .finite s m e hm) :
    Canonical m e ∧ e ≤ 971 := by
  have hbias : ((Format.binary64.exponentBias : ℤ) + (52 : ℕ)) = 1075 := rfl
  change UnpackedFloat.unpack Format.binary64 x.toBits.toBitVec = _ at h
  unfold UnpackedFloat.unpack at h
  dsimp only at h
  set mantissa := @unpackMantissa Format.binary64 x.toBits.toBitVec
  set exponent := @unpackExponent Format.binary64 x.toBits.toBitVec
  have hmantissa : mantissa.toNat < 2 ^ 52 := mantissa.isLt
  have hexponent : exponent.toNat < 2 ^ 11 := exponent.isLt
  by_cases hspecial : exponent = -1#_
  · rw [if_pos hspecial] at h
    by_cases hinf : mantissa = 0#_
    · rw [if_pos hinf] at h
      cases h
    · rw [if_neg hinf] at h
      cases h
  · rw [if_neg hspecial] at h
    by_cases hsub : exponent = 0#_
    · rw [if_pos hsub] at h
      by_cases hzero : mantissa = 0#_
      · rw [dif_pos hzero] at h
        cases h
      · -- a subnormal number
        rw [dif_neg hzero, UnpackedFloat.finite.injEq, hbias] at h
        obtain ⟨-, rfl, rfl⟩ := h
        have hev : exponent.toNat = 0 := congrArg BitVec.toNat hsub
        exact ⟨⟨hmantissa.trans (by norm_num), by omega, .inr (by omega)⟩, by omega⟩
    · rw [if_neg hsub, UnpackedFloat.finite.injEq, hbias] at h
      obtain ⟨-, rfl, rfl⟩ := h
      have happend : (1#1 ++ mantissa).toNat = 2 ^ 52 + mantissa.toNat := by
        rw [BitVec.toNat_append, ← Nat.shiftLeft_add_eq_or_of_lt hmantissa, Nat.shiftLeft_eq]
        rfl
      have hpos : exponent.toNat ≠ 0 := fun hev => hsub (BitVec.eq_of_toNat_eq hev)
      have htop : exponent.toNat ≠ 2047 := fun hev => hspecial (BitVec.eq_of_toNat_eq hev)
      rw [happend]
      exact ⟨⟨by omega, by omega, .inl (by omega)⟩, by omega⟩

theorem log2_lt_of_lt (hm : 0 < m) (h : m < 2 ^ 52) : m.log2 < 52 := (Nat.log2_lt hm.ne').mpr h

theorem unpack_pack_subnormal (hm : 0 < m) (h : m < 2 ^ 52) (s : Sign) :
    (Float.Model.pack (.finite s m (-1074) hm)).unpack = .finite s m (-1074) hm := by
  have hnat : (BitVec.ofNat 52 m).toNat = m := by
    rw [BitVec.toNat_ofNat, Nat.mod_eq_of_lt h]
  have hne : BitVec.ofNat 52 m ≠ 0#52 := by
    intro hc
    have := congrArg BitVec.toNat hc
    rw [hnat] at this
    exact hm.ne' this
  have hpack : UnpackedFloat.pack Format.binary64 (.finite s m (-1074) hm) =
      packComponents Format.binary64 s 0#11 (BitVec.ofNat 52 m) := by
    have hlog : m.log2 + 1 ≠ Format.binary64.mantissaBits := by
      have := log2_lt_of_lt hm h
      show m.log2 + 1 ≠ 53
      omega
    unfold UnpackedFloat.pack
    dsimp only
    rw [if_neg (by decide), if_neg hlog]
  have hexponent : unpackExponent (packComponents Format.binary64 s 0#11 (BitVec.ofNat 52 m)) =
    0#11 := unpackExponent_packComponents
  have hmantissa : unpackMantissa (packComponents Format.binary64 s 0#11 (BitVec.ofNat 52 m)) =
    BitVec.ofNat 52 m := unpackMantissa_packComponents
  show UnpackedFloat.unpack Format.binary64
    (UnpackedFloat.pack Format.binary64 (.finite s m (-1074) hm)) = .finite s m (-1074) hm
  rw [hpack]
  unfold UnpackedFloat.unpack
  dsimp only
  rw [if_neg (hexponent.trans_ne (by decide)), if_pos hexponent, dif_neg (hmantissa.trans_ne hne)]
  refine (UnpackedFloat.finite.injEq ..).mpr ⟨?_, ?_, ?_⟩
  · rw [unpackSign_packComponents, ofBitVec_toBitVec]
  · rw [hmantissa, hnat]
  · rw [hexponent]
    rfl

theorem unpack_pack_overflow (hm : 0 < m) (he : 971 < e) (s : Sign) :
    (Float.Model.pack (.finite s m e hm)).unpack = .infinity s := by
  have hpack : UnpackedFloat.pack Format.binary64 (.finite s m e hm) =
      packedInfinity Format.binary64 s := by
    have hbias : (e + Format.binary64.exponentBias + Format.binary64.mantissaBitsWithoutImplicit) =
      e + 1075 := by
      show e + 1023 + 52 = e + 1075
      ring
    unfold UnpackedFloat.pack
    dsimp only
    rw [hbias]
    exact if_pos (show 2 ^ 11 ≤ (e + 1075).toNat + 1 by omega)
  show UnpackedFloat.unpack Format.binary64
    (UnpackedFloat.pack Format.binary64 (.finite s m e hm)) = .infinity s
  rw [hpack]
  cases s <;> rfl

namespace Canonical

variable (h : Canonical m e)

include h

/-- **Packing** loses nothing that fits the exponents. -/
theorem unpack_pack (hm : 0 < m) (he : e ≤ 971) (s : Sign) :
    (Float.Model.pack (.finite s m e hm)).unpack = .finite s m e hm := by
  by_cases hfull : 2 ^ 52 ≤ m
  · exact unpack_pack_finite ⟨hfull, h.lt⟩ h.le he s
  · obtain rfl := h.full.resolve_left hfull
    exact unpack_pack_subnormal hm (not_le.mp hfull) s

theorem exponent_le_iff : e ≤ 971 ↔ (m : ℚ) * 2 ^ e < 2 ^ (1024 : ℤ) := by
  have hpow : (0 : ℚ) < 2 ^ e := zpow_pos two_pos _
  constructor
  · intro he
    calc (m : ℚ) * 2 ^ e < 2 ^ (53 : ℤ) * 2 ^ e :=
          mul_lt_mul_of_pos_right (by exact_mod_cast h.lt) hpow
      _ = 2 ^ (53 + e) := (zpow_add₀ two_ne_zero _ _).symm
      _ ≤ 2 ^ (1024 : ℤ) := zpow_le_zpow_right₀ one_le_two (by omega)
  · intro hlt
    by_contra he
    have hfull := h.full.resolve_right (by omega)
    refine absurd hlt (not_lt.mpr ?_)
    calc (2 : ℚ) ^ (1024 : ℤ) ≤ 2 ^ (52 + e) := zpow_le_zpow_right₀ one_le_two (by omega)
      _ = 2 ^ (52 : ℤ) * 2 ^ e := zpow_add₀ two_ne_zero _ _
      _ ≤ m * 2 ^ e := mul_le_mul_of_nonneg_right (by exact_mod_cast hfull) hpow.le

/-- **The number that is packed**, unless it overflows. -/
theorem number?_unpack_pack (hm : 0 < m) (s : Sign) :
    number? (Float.Model.pack (.finite s m e hm)).unpack =
      if (m : ℚ) * 2 ^ e < 2 ^ (1024 : ℤ) then some (signed s (m * 2 ^ e)) else none := by
  by_cases he : e ≤ 971
  · rw [h.unpack_pack hm he, if_pos (h.exponent_le_iff.mp he)]
    rfl
  · rw [unpack_pack_overflow hm (by omega), if_neg fun hlt => he (h.exponent_le_iff.mpr hlt)]
    rfl

end Canonical

/-! ## Rounding to the nearest -/

/-- The integer nearest to the number, an even one if there are two. -/
def Nearest (r : ℕ) (x : ℚ) : Prop :=
  ∀ n : ℕ, r ≤ n ↔ x < n + 1 / 2 ∨ x = n + 1 / 2 ∧ Even n

/-- **Residual bits** round to the nearest. -/
theorem Stands.nearest {em : ExtendedMantissa} {x : ℚ} (h : Stands em x) :
    Nearest em.roundedMantissa x := by
  obtain ⟨r, h0, h1, hr, rfl⟩ := h
  obtain ⟨m, b, t⟩ := em
  dsimp only at hr
  intro n
  cases b with
  | false =>
    have hm : ExtendedMantissa.roundedMantissa ⟨m, false, t⟩ = m := by cases t <;> rfl
    simp only [hm, Bool.false_eq_true, if_false]
    constructor
    · intro hle
      have hle' : (m : ℚ) ≤ n := by exact_mod_cast hle
      exact .inl (by linarith)
    · intro hx
      have hlt : (m : ℚ) < n + 1 := by rcases hx with hx | ⟨hx, -⟩ <;> linarith
      exact Nat.lt_add_one_iff.mp (by exact_mod_cast hlt)
  | true =>
    simp only [if_true]
    cases t with
    | false =>
      have hm : ExtendedMantissa.roundedMantissa ⟨m, true, false⟩ = m + m % 2 := rfl
      rw [hm, hr.mp rfl, add_zero, add_lt_add_iff_right, add_left_inj, Nat.cast_lt, Nat.cast_inj,
        Nat.even_iff]
      omega
    | true =>
      have hm : ExtendedMantissa.roundedMantissa ⟨m, true, true⟩ = m + 1 := rfl
      have hr0 : 0 < r := lt_of_le_of_ne h0 fun hc => Bool.noConfusion (hr.mpr hc.symm)
      rw [hm]
      constructor
      · intro hle
        have hle' : (m : ℚ) + 1 ≤ n := by exact_mod_cast hle
        exact .inl (by linarith)
      · intro hx
        have hlt : (m : ℚ) < n := by rcases hx with hx | ⟨hx, -⟩ <;> linarith
        exact Nat.succ_le_of_lt (by exact_mod_cast hlt)

theorem nearest_self (m : ℕ) : Nearest m m := (stands_exact m).nearest

theorem targetExponent_max (M : ℕ) (e : ℤ) : Format.binary64.targetExponent (totalExponent M e) =
    max (M.log2 + e - 52) (-1074) := by
  have hmin : Format.binary64.minExponent = -1074 := rfl
  have hbits : (Format.binary64.mantissaBits : ℤ) = 53 := rfl
  unfold Format.targetExponent totalExponent
  rw [hmin, hbits]
  congr 1
  ring

theorem shiftToTargetExponent_eq {M k : ℕ}
    (hk : (max ((M.log2 : ℤ) + e - 52) (-1074) - e).toNat = k) :
    shiftToTargetExponent Format.binary64 M e .exact =
      ((⟨M, false, false⟩ : ExtendedMantissa) >>> k, e + k) := by
  unfold shiftToTargetExponent shiftToExponent
  rw [targetExponent_max]
  dsimp only
  rw [hk]
  rfl

theorem finish_rounding {r : ℕ} {t : ℤ} (hr : r ≤ 2 ^ 53) (ht : -1074 ≤ t) :
    ∃ m e, shiftToTargetExponent Format.binary64 r t .exact = (⟨m, false, false⟩, e) ∧
      (m : ℚ) * 2 ^ e = r * 2 ^ t ∧ m < 2 ^ 53 ∧ t ≤ e ∧ (2 ^ 52 ≤ r → 2 ^ 52 ≤ m) ∧
      (r < 2 ^ 53 → e = t) := by
  rcases hr.lt_or_eq with hlt | rfl
  · have hlog : r.log2 ≤ 52 := by
      rcases Nat.eq_zero_or_pos r with rfl | hpos
      · exact Nat.zero_le _
      · exact Nat.lt_succ_iff.mp ((Nat.log2_lt hpos.ne').mpr hlt)
    have hk : (max ((r.log2 : ℤ) + t - 52) (-1074) - t).toNat = 0 := by omega
    refine ⟨r, t, ?_, rfl, hlt, le_refl _, id, fun _ => rfl⟩
    rw [shiftToTargetExponent_eq hk]
    exact Prod.ext rfl (add_zero t)
  · have hlog : (2 ^ 53 : ℕ).log2 = 53 := Nat.log2_two_pow
    have hk : (max (((2 ^ 53 : ℕ).log2 : ℤ) + t - 52) (-1074) - t).toNat = 1 := by omega
    refine ⟨2 ^ 52, t + 1, ?_, ?_, by norm_num, by omega, fun _ => le_refl _, fun h => by omega⟩
    · rw [shiftToTargetExponent_eq hk]
      exact Prod.ext (shiftRight_exact (2 ^ 52) 1) rfl
    · rw [zpow_add_one₀ two_ne_zero]
      push_cast
      ring

/-- **What rounding makes** of a mantissa whose exponent is not above the one it is shifted to: a
multiple of the unit `2 ^ t`, the nearest one, unless it overflows. -/
theorem exists_rounded {M : ℕ} (hM : 0 < M) (he : e ≤ max ((M.log2 : ℤ) + e - 52) (-1074))
    (s : Sign) : ∃ (r : ℕ) (t : ℤ) (u : ℚ), Nearest r u ∧ (M : ℚ) * 2 ^ e = u * 2 ^ t ∧
      -1074 ≤ t ∧ u < 2 ^ 53 ∧ (2 ^ 52 ≤ u ∨ t = -1074) ∧
      number? (Float.Model.pack (roundWithAccuracy Format.binary64 s M e .exact)).unpack =
        if (r : ℚ) * 2 ^ t < 2 ^ (1024 : ℤ) then some (signed s (r * 2 ^ t)) else none := by
  obtain ⟨k, hk⟩ : ∃ k : ℕ, max ((M.log2 : ℤ) + e - 52) (-1074) = e + k :=
    ⟨(max ((M.log2 : ℤ) + e - 52) (-1074) - e).toNat, by omega⟩
  have ht : -1074 ≤ e + k := by omega
  have hpow : (0 : ℚ) < 2 ^ k := by positivity
  have hshifted : shiftToTargetExponent Format.binary64 M e .exact =
      ((⟨M, false, false⟩ : ExtendedMantissa) >>> k, e + k) :=
    shiftToTargetExponent_eq (by omega)
  have hstands := (stands_exact M).shiftRight k
  have hnearest := hstands.nearest
  generalize hem : (⟨M, false, false⟩ : ExtendedMantissa) >>> k = em at hshifted hstands hnearest
  have hvalue : (M : ℚ) * 2 ^ e = M / 2 ^ k * 2 ^ (e + k) := by
    rw [zpow_add₀ two_ne_zero, zpow_natCast]
    field_simp
  have hu : (M : ℚ) / 2 ^ k < 2 ^ 53 := by
    rw [div_lt_iff₀ hpow, ← pow_add]
    have hlt : M < 2 ^ (53 + k) :=
      (Nat.lt_log2_self (n := M)).trans_le (Nat.pow_le_pow_right two_pos (by omega))
    exact_mod_cast hlt
  have hfull : (2 : ℚ) ^ 52 ≤ M / 2 ^ k ∨ e + k = -1074 := by
    by_cases hmin : e + k = -1074
    · exact .inr hmin
    · refine .inl ?_
      rw [le_div_iff₀ hpow, ← pow_add]
      have hle : 2 ^ (52 + k) ≤ M :=
        (Nat.pow_le_pow_right two_pos (by omega)).trans (Nat.log2_self_le hM.ne')
      exact_mod_cast hle
  have hr : em.roundedMantissa ≤ 2 ^ 53 := by
    refine (hnearest (2 ^ 53)).mpr (.inl ?_)
    push_cast
    linarith
  have hr52 : (2 : ℚ) ^ 52 ≤ M / 2 ^ k → 2 ^ 52 ≤ em.roundedMantissa := by
    intro h
    by_contra hlt
    rcases (hnearest (2 ^ 52 - 1)).mp (by omega) with hc | ⟨hc, -⟩ <;>
      · rw [Nat.cast_sub (by norm_num)] at hc
        push_cast at hc
        linarith
  refine ⟨em.roundedMantissa, e + k, M / 2 ^ k, hnearest, hvalue, ht, hu, hfull, ?_⟩
  obtain ⟨m, e', hfinish, hm, hlt, hle, hm52, hsame⟩ := finish_rounding hr ht
  have hround : roundWithAccuracy Format.binary64 s M e .exact =
      if h : m = 0 then .zero s else .finite s m e' (Nat.pos_of_ne_zero h) := by
    unfold roundWithAccuracy
    rw [hshifted]
    dsimp only
    rw [hfinish]
  rw [hround, ← hm]
  by_cases hzero : m = 0
  · subst hzero
    have hsigned : signed s (0 * 2 ^ e') = 0 := by
      cases s <;> simp [signed]
    have hpos : (0 : ℚ) * 2 ^ e' < 2 ^ (1024 : ℤ) := (zero_mul _).trans_lt (zpow_pos two_pos _)
    rw [dif_pos rfl, Nat.cast_zero, hsigned, if_pos hpos]
    cases s <;> rfl
  · have hcanonical : Canonical m e' := by
      refine ⟨hlt, ht.trans hle, ?_⟩
      rcases hfull with h | h
      · exact .inl (hm52 (hr52 h))
      · by_cases h53 : em.roundedMantissa < 2 ^ 53
        · exact .inr ((hsame h53).trans h)
        · exact .inl (hm52 (by omega))
    rw [dif_neg hzero]
    exact hcanonical.number?_unpack_pack (Nat.pos_of_ne_zero hzero) s

/-! ## Bounds -/

/-- A positive double with all its bits. -/
structure Bound where
  mantissa : ℕ
  exponent : ℤ
  normal : Normal mantissa
  low : -1074 ≤ exponent
  high : exponent ≤ 971

namespace Bound

variable (b : Bound)

/-- The number that it is. -/
def val : ℚ := b.mantissa * 2 ^ b.exponent

/-- The number does not lie beyond the midpoint between the bound and the next double; the midpoint
itself belongs to the one with the even mantissa. -/
def Covers (x : ℚ) : Prop :=
  x < (b.mantissa + 1 / 2) * 2 ^ b.exponent ∨
    x = (b.mantissa + 1 / 2) * 2 ^ b.exponent ∧ Even b.mantissa

theorem val_pos : 0 < b.val := mul_pos (by exact_mod_cast b.normal.pos) (zpow_pos two_pos _)

theorem val_lt : b.val < 2 ^ (1024 : ℤ) :=
  (Canonical.exponent_le_iff ⟨b.normal.2, b.low, .inl b.normal.1⟩).mp b.high

theorem covers_of_nonpos {x : ℚ} (hx : x ≤ 0) : b.Covers x :=
  .inl (hx.trans_lt (mul_pos (by positivity) (zpow_pos two_pos _)))

/-- The double after it. -/
def next : ℚ := (b.mantissa + 1) * 2 ^ b.exponent

theorem unit_le {t τ : ℤ} (h : t < τ) : (2 : ℚ) ^ 53 * 2 ^ t ≤ 2 ^ 52 * 2 ^ τ := by
  have hpow := zpow_le_zpow_right₀ (one_le_two (α := ℚ)) (show 53 + t ≤ 52 + τ by omega)
  rw [zpow_add₀ two_ne_zero, zpow_add₀ two_ne_zero] at hpow
  exact_mod_cast hpow

theorem multiple_le {t : ℤ} {x : ℚ} (h : t < b.exponent) (hx : x ≤ 2 ^ 53) : x * 2 ^ t ≤ b.val := by
  have hm : (2 : ℚ) ^ 52 ≤ b.mantissa := by exact_mod_cast b.normal.1
  exact (mul_le_mul_of_nonneg_right hx (zpow_pos two_pos _).le).trans ((unit_le h).trans
    (mul_le_mul_of_nonneg_right hm (zpow_pos two_pos _).le))

theorem next_le {t : ℤ} {x : ℚ} (h : b.exponent < t) (hx : 2 ^ 52 ≤ x) : b.next ≤ x * 2 ^ t := by
  have hm : (b.mantissa : ℚ) + 1 ≤ 2 ^ 53 := by exact_mod_cast b.normal.2
  exact (mul_le_mul_of_nonneg_right hm (zpow_pos two_pos _).le).trans ((unit_le h).trans
    (mul_le_mul_of_nonneg_right hx (zpow_pos two_pos _).le))

theorem val_lt_midpoint : b.val < (b.mantissa + 1 / 2) * 2 ^ b.exponent :=
  mul_lt_mul_of_pos_right (by linarith) (zpow_pos two_pos _)

theorem midpoint_lt_next : (b.mantissa + 1 / 2) * 2 ^ b.exponent < b.next :=
  mul_lt_mul_of_pos_right (by linarith) (zpow_pos two_pos _)

/-- **Rounding to the nearest multiple of a unit** stays within the bound for the numbers that it
covers. -/
theorem le_val_iff {r : ℕ} {t : ℤ} {u : ℚ} (hr : Nearest r u) (hu : u < 2 ^ 53)
    (hfull : 2 ^ 52 ≤ u ∨ t = -1074) : (r : ℚ) * 2 ^ t ≤ b.val ↔ b.Covers (u * 2 ^ t) := by
  have hτ : (0 : ℚ) < 2 ^ b.exponent := zpow_pos two_pos _
  have hval := b.val_lt_midpoint
  have hnext := b.midpoint_lt_next
  rcases lt_trichotomy t b.exponent with hlt | rfl | hgt
  · have hr53 : (r : ℚ) ≤ 2 ^ 53 := by
      have := (hr (2 ^ 53)).mpr (.inl (by push_cast; linarith))
      exact_mod_cast this
    exact iff_of_true (b.multiple_le hlt hr53) (.inl ((b.multiple_le hlt hu.le).trans_lt hval))
  · unfold val Covers
    rw [mul_le_mul_iff_left₀ hτ, mul_lt_mul_iff_left₀ hτ, mul_left_inj' hτ.ne', Nat.cast_le]
    exact hr b.mantissa
  · have hu52 := hfull.resolve_right (by have := b.low; omega)
    have hr52 : (2 : ℚ) ^ 52 ≤ r := by
      by_contra hc
      have hle : r ≤ 2 ^ 52 - 1 := by
        have : r < 2 ^ 52 := by exact_mod_cast not_le.mp hc
        omega
      rcases (hr (2 ^ 52 - 1)).mp hle with h | ⟨h, -⟩ <;>
        · rw [Nat.cast_sub (by norm_num)] at h
          push_cast at h
          linarith
    have h₁ := b.next_le hgt hr52
    have h₂ := b.next_le hgt hu52
    refine iff_of_false (by linarith) ?_
    rintro (h | ⟨h, -⟩) <;> linarith

/-- **A double** is within the bound if it is covered. -/
theorem le_val_iff_of_canonical (h : Canonical m e) :
    (m : ℚ) * 2 ^ e ≤ b.val ↔ b.Covers (m * 2 ^ e) := by
  refine b.le_val_iff (nearest_self m) (by exact_mod_cast h.lt) ?_
  rcases h.full with hfull | hfull
  · exact .inl (by exact_mod_cast hfull)
  · exact .inr hfull

/-- **No double is in between** the bound and the next one. -/
theorem le_val_of_lt_next (h : Canonical m e) (hlt : (m : ℚ) * 2 ^ e < b.next) :
    (m : ℚ) * 2 ^ e ≤ b.val := by
  have hτ : (0 : ℚ) < 2 ^ b.exponent := zpow_pos two_pos _
  rcases lt_trichotomy e b.exponent with he | rfl | he
  · exact b.multiple_le he (by exact_mod_cast h.lt.le)
  · have hm := lt_of_mul_lt_mul_right hlt hτ.le
    have hle : m ≤ b.mantissa := Nat.lt_succ_iff.mp (by exact_mod_cast hm)
    exact mul_le_mul_of_nonneg_right (by exact_mod_cast hle) hτ.le
  · have hfull := h.full.resolve_right (by have := b.low; omega)
    exact absurd hlt (not_lt.mpr (b.next_le he (by exact_mod_cast hfull)))

end Bound

/-! ## Windows -/

/-- Two bounds, one for the negative numbers and one for the positive ones. -/
structure Window where
  below : Bound
  above : Bound

/-- A finite float is in canonical form and does not overflow. -/
def Proper (f : UnpackedFloat) : Prop :=
  ∀ s m e hm, f = .finite s m e hm → Canonical m e ∧ e ≤ 971

theorem proper_unpack (x : Float.Model) : Proper x.unpack := fun _ _ _ _ => canonical_of_unpack

variable {f g : UnpackedFloat} {x y : ℚ}

theorem Proper.neg (hf : Proper f) : Proper f.neg := by
  intro s m e hm h
  cases f with
  | finite s' m' e' hm' =>
    cases h
    exact hf s' m e hm rfl
  | notANumber | infinity | zero => cases h

theorem number?_neg (f : UnpackedFloat) : number? f.neg = (number? f).map (-·) := by
  rcases f with s | _ | s | ⟨_ | _, m, e, hm⟩
  · rfl
  · rfl
  · exact congrArg some neg_zero.symm
  · exact congrArg some (neg_neg _).symm
  · rfl

theorem number?_pack (hf : Proper f) : number? (Float.Model.pack f).unpack = number? f := by
  rcases f with (_ | _) | _ | (_ | _) | ⟨s, m, e, hm⟩
  · rfl
  · rfl
  · rfl
  · rfl
  · rfl
  · obtain ⟨hcanonical, he⟩ := hf s m e hm rfl
    rw [hcanonical.unpack_pack hm he]

theorem multiple_nonneg (m : ℕ) (e : ℤ) : (0 : ℚ) ≤ m * 2 ^ e :=
  mul_nonneg (Nat.cast_nonneg m) (zpow_pos two_pos _).le

/-- Infinite or undefined. -/
inductive Lost : UnpackedFloat → Prop
  | infinity (s : Sign) : Lost (.infinity s)
  | notANumber : Lost .notANumber

theorem Lost.real?_pack (h : Lost f) : real? (Float.Model.pack f) = none := by
  cases h with
  | infinity s => cases s <;> rfl
  | notANumber => rfl

theorem lost_add (h : number? f = none ∨ number? g = none) :
    Lost (UnpackedFloat.add Format.binary64 f g) := by
  rcases f with (_ | _) | _ | s | ⟨s, m, e, hm⟩ <;>
    rcases g with (_ | _) | _ | s' | ⟨s', m', e', hm'⟩ <;>
    first
      | exact .notANumber
      | exact .infinity _
      | exact h.elim nofun nofun

theorem lost_mul (h : number? f = none ∨ number? g = none) :
    Lost (UnpackedFloat.mul Format.binary64 f g) := by
  rcases f with s | _ | s | ⟨s, m, e, hm⟩ <;>
    rcases g with s' | _ | s' | ⟨s', m', e', hm'⟩ <;>
    first
      | exact .notANumber
      | exact .infinity _
      | exact h.elim nofun nofun

namespace Window

variable (w : Window)

/-- The double is a number between the bounds. -/
def Holds (d : Float.Model) : Prop :=
  ∃ v, real? d = some v ∧ -w.below.val ≤ v ∧ v ≤ w.above.val

/-- The number is not beyond the bounds when it is rounded. -/
def Takes (x : ℚ) : Prop := w.below.Covers (-x) ∧ w.above.Covers x

theorem takes_zero : w.Takes 0 :=
  ⟨w.below.covers_of_nonpos neg_zero.le, w.above.covers_of_nonpos (le_refl _)⟩

/-- **What rounds to `y`**, if it is not an overflow, is in the window together with `y`. -/
theorem holds_signed_iff {d : Float.Model} (hx : 0 ≤ x) (hy : 0 ≤ y)
    (hxy : ∀ b : Bound, y ≤ b.val ↔ b.Covers x) (s : Sign)
    (hd : real? d = if y < 2 ^ (1024 : ℤ) then some (signed s y) else none) :
    w.Holds d ↔ w.Takes (signed s x) := by
  have hlt : ∀ b : Bound, b.Covers x → y < 2 ^ (1024 : ℤ) := fun b hb =>
    ((hxy b).mpr hb).trans_lt b.val_lt
  have hbelow := w.below.val_pos
  have habove := w.above.val_pos
  unfold Holds Takes
  cases s with
  | positive =>
    constructor
    · rintro ⟨v, hv, -, hle⟩
      rw [hd] at hv
      split_ifs at hv
      cases hv
      exact ⟨w.below.covers_of_nonpos (neg_nonpos.mpr hx), (hxy _).mp hle⟩
    · rintro ⟨-, hcovers⟩
      rw [if_pos (hlt _ hcovers)] at hd
      have hle := (hxy _).mpr hcovers
      exact ⟨y, hd, by linarith, hle⟩
  | negative =>
    have hneg : signed .negative x = -x := rfl
    rw [hneg, neg_neg]
    constructor
    · rintro ⟨v, hv, hle, -⟩
      rw [hd] at hv
      split_ifs at hv
      cases hv
      exact ⟨(hxy _).mp (neg_le_neg_iff.mp hle), w.above.covers_of_nonpos (neg_nonpos.mpr hx)⟩
    · rintro ⟨hcovers, -⟩
      rw [if_pos (hlt _ hcovers)] at hd
      have hle := (hxy _).mpr hcovers
      exact ⟨-y, hd, by linarith, by linarith⟩

/-- **Rounding a mantissa** whose exponent is not above the one it is shifted to. -/
theorem holds_roundWithAccuracy_iff {M : ℕ} (hM : 0 < M)
    (he : e ≤ max ((M.log2 : ℤ) + e - 52) (-1074)) (s : Sign) :
    w.Holds (Float.Model.pack (roundWithAccuracy Format.binary64 s M e .exact)) ↔
      w.Takes (signed s (M * 2 ^ e)) := by
  obtain ⟨r, t, u, hr, hvalue, -, hu, hfull, hnumber⟩ := exists_rounded hM he s
  refine w.holds_signed_iff (multiple_nonneg M e) (multiple_nonneg r t) (fun b => ?_) s hnumber
  rw [hvalue]
  exact b.le_val_iff hr hu hfull

/-- **Rounding an integer** in units of `2 ^ e`. -/
theorem holds_normalize_iff (K : ℤ) (e : ℤ) (z : Sign) :
    w.Holds (Float.Model.pack (UnpackedFloat.normalize Format.binary64 K e z)) ↔
      w.Takes (K * 2 ^ e) := by
  rcases exists_sign K with rfl | ⟨s, M, hM, rfl⟩
  · rw [Int.cast_zero, zero_mul]
    refine iff_of_true ⟨0, ?_, ?_, w.above.val_pos.le⟩ w.takes_zero
    · show number? (Float.Model.pack (.zero z)).unpack = some 0
      cases z <;> rfl
    · exact neg_nonpos.mpr w.below.val_pos.le
  · obtain ⟨k, hk⟩ : ∃ k : ℕ, (e - max ((M.log2 : ℤ) + e - 52) (-1074)).toNat = k := ⟨_, rfl⟩
    have hround : UnpackedFloat.round Format.binary64 s M e =
        roundWithAccuracy Format.binary64 s (M * 2 ^ k) (e - k) .exact := by
      unfold UnpackedFloat.round decreaseExponent
      dsimp only
      rw [targetExponent_max, hk, Nat.shiftLeft_eq]
    have hlog := log2_mul_two_pow hM.ne' k
    have hvalue : (M : ℚ) * 2 ^ e = ((M * 2 ^ k : ℕ) : ℚ) * 2 ^ (e - k) := by
      rw [zpow_sub₀ two_ne_zero, zpow_natCast]
      push_cast
      field_simp
    rw [normalize_apply hM, hround, ← signed_apply, hvalue]
    refine w.holds_roundWithAccuracy_iff (Nat.mul_pos hM (Nat.two_pow_pos k)) ?_ s
    omega

/-- **A float that is packed.** -/
theorem holds_pack_iff (hf : Proper f) (h : number? f = some x) :
    w.Holds (Float.Model.pack f) ↔ w.Takes x := by
  have hpack := number?_pack hf
  cases f with
  | infinity s => cases h
  | notANumber => cases h
  | zero s =>
    cases h
    exact iff_of_true ⟨0, hpack, neg_nonpos.mpr w.below.val_pos.le, w.above.val_pos.le⟩ w.takes_zero
  | finite s m e hm =>
    cases h
    obtain ⟨hcanonical, he⟩ := hf s m e hm rfl
    refine w.holds_signed_iff (multiple_nonneg m e) (multiple_nonneg m e)
      (fun b => b.le_val_iff_of_canonical hcanonical) s ?_
    rw [if_pos (hcanonical.exponent_le_iff.mp he)]
    exact hpack

/-- **The doubles in the window** are the numbers that round into it. -/
theorem holds_iff {d : Float.Model} (h : real? d = some x) : w.Holds d ↔ w.Takes x := by
  have hpack := number?_pack (proper_unpack d)
  have hsame : w.Holds d ↔ w.Holds (Float.Model.pack d.unpack) := by
    unfold Holds real?
    rw [hpack]
  rw [hsame]
  exact w.holds_pack_iff (proper_unpack d) h

/-- **The numbers next to the window** are not doubles. -/
theorem holds_iff_lt {d : Float.Model} (h : real? d = some x) :
    w.Holds d ↔ -w.below.next < x ∧ x < w.above.next := by
  have hbelow := w.below.val_lt_midpoint.trans w.below.midpoint_lt_next
  have habove := w.above.val_lt_midpoint.trans w.above.midpoint_lt_next
  constructor
  · rintro ⟨v, hv, h₁, h₂⟩
    rw [h] at hv
    cases hv
    constructor <;> linarith
  · rintro ⟨h₁, h₂⟩
    refine ⟨x, h, ?_⟩
    have hbelow0 := w.below.val_pos
    have habove0 := w.above.val_pos
    have hproper := proper_unpack d
    unfold real? at h
    generalize d.unpack = f at h hproper
    cases f with
    | infinity s => cases h
    | notANumber => cases h
    | zero s =>
      cases h
      constructor <;> linarith
    | finite s m e hm =>
      have hcanonical := (hproper s m e hm rfl).1
      have hnonneg := multiple_nonneg m e
      cases h
      cases s with
      | positive =>
        change (m : ℚ) * 2 ^ e < _ at h₂
        have hle := w.above.le_val_of_lt_next hcanonical h₂
        exact ⟨by show _ ≤ (m : ℚ) * 2 ^ e; linarith, hle⟩
      | negative =>
        change _ < -((m : ℚ) * 2 ^ e) at h₁
        have hle := w.below.le_val_of_lt_next hcanonical (neg_lt_neg_iff.mp h₁)
        exact ⟨neg_le_neg_iff.mpr hle, by show -((m : ℚ) * 2 ^ e) ≤ _; linarith⟩

/-- **An operation on two operands** that yields no number where one of them is none, and a value
that is in the window exactly if the exact result rounds into it. -/
theorem holds_pack_iff_exists {r : UnpackedFloat} {value : ℚ → ℚ → ℚ}
    (hlost : number? f = none ∨ number? g = none → Lost r)
    (hvalue : ∀ x y, number? f = some x → number? g = some y →
      (w.Holds (Float.Model.pack r) ↔ w.Takes (value x y))) :
    w.Holds (Float.Model.pack r) ↔
      ∃ x y, number? f = some x ∧ number? g = some y ∧ w.Takes (value x y) := by
  have hnone : number? f = none ∨ number? g = none → ¬ w.Holds (Float.Model.pack r) := by
    rintro h ⟨v, hv, -⟩
    rw [(hlost h).real?_pack] at hv
    cases hv
  constructor
  · intro h
    cases hx : number? f with
    | none => exact absurd h (hnone (.inl hx))
    | some x =>
      cases hy : number? g with
      | none => exact absurd h (hnone (.inr hy))
      | some y => exact ⟨x, y, rfl, rfl, (hvalue x y hx hy).mp h⟩
  · rintro ⟨x, y, hx, hy, h⟩
    exact (hvalue x y hx hy).mpr h

theorem holds_pack_add_iff_takes (hf : Proper f) (hg : Proper g) {x y : ℚ}
    (hx : number? f = some x) (hy : number? g = some y) :
    w.Holds (Float.Model.pack (UnpackedFloat.add Format.binary64 f g)) ↔ w.Takes (x + y) := by
  cases f with
  | infinity s => cases hx
  | notANumber => cases hx
  | zero s =>
    cases hx
    cases g with
    | infinity s' => cases hy
    | notANumber => cases hy
    | zero s' =>
      cases hy
      rw [add_zero]
      have hzero : ∃ t, UnpackedFloat.add Format.binary64 (.zero s) (.zero s') = .zero t := by
        cases s <;> cases s' <;> exact ⟨_, rfl⟩
      obtain ⟨t, ht⟩ := hzero
      rw [ht]
      exact w.holds_pack_iff nofun rfl
    | finite s' m' e' hm' =>
      rw [zero_add]
      exact w.holds_pack_iff hg hy
  | finite s m e hm =>
    cases g with
    | infinity s' => cases hy
    | notANumber => cases hy
    | zero s' =>
      cases hy
      rw [add_zero]
      exact w.holds_pack_iff hf hx
    | finite s' m' e' hm' =>
      cases hx
      cases hy
      have hadd : UnpackedFloat.add Format.binary64 (.finite s m e hm) (.finite s' m' e' hm') =
          UnpackedFloat.normalize Format.binary64
            (s.apply (decreaseExponent m e (min e e')).1 +
              s'.apply (decreaseExponent m' e' (min e e')).1) (min e e') .positive := rfl
      have hvalue := decreaseExponent_value m (min_le_left e e')
      have hvalue' := decreaseExponent_value m' (min_le_right e e')
      rw [hadd, holds_normalize_iff, ← hvalue, ← hvalue', signed_apply, signed_apply]
      push_cast
      rw [add_mul]

theorem holds_pack_add_iff (hf : Proper f) (hg : Proper g) :
    w.Holds (Float.Model.pack (UnpackedFloat.add Format.binary64 f g)) ↔
      ∃ x y, number? f = some x ∧ number? g = some y ∧ w.Takes (x + y) :=
  w.holds_pack_iff_exists lost_add fun _ _ => w.holds_pack_add_iff_takes hf hg

variable {a b : Float.Model}

/-- **A sum** is in the window exactly if its operands are numbers whose sum rounds into it. -/
theorem holds_add_iff : w.Holds (a + b) ↔
    ∃ x y, real? a = some x ∧ real? b = some y ∧ w.Takes (x + y) :=
  w.holds_pack_add_iff (proper_unpack a) (proper_unpack b)

theorem holds_sub_iff : w.Holds (a - b) ↔
    ∃ x y, real? a = some x ∧ real? b = some y ∧ w.Takes (x - y) := by
  have hsub : a - b =
      Float.Model.pack (UnpackedFloat.add Format.binary64 a.unpack b.unpack.neg) :=
    congrArg Float.Model.pack (sub_eq_add_neg_unpacked a.unpack b.unpack)
  rw [hsub, holds_pack_add_iff w (proper_unpack a) (proper_unpack b).neg, number?_neg]
  constructor
  · rintro ⟨x, y, hx, hy, h⟩
    obtain ⟨y', hy', rfl⟩ := Option.map_eq_some_iff.mp hy
    exact ⟨x, y', hx, hy', sub_eq_add_neg x y' ▸ h⟩
  · rintro ⟨x, y, hx, hy, h⟩
    refine ⟨x, -y, hx, ?_, sub_eq_add_neg x y ▸ h⟩
    exact Option.map_eq_some_iff.mpr ⟨y, hy, rfl⟩

theorem mul_exponent_le {m m' : ℕ} {e e' : ℤ} (h : Canonical m e) (h' : Canonical m' e')
    (hm : 0 < m) (hm' : 0 < m') :
    e + e' ≤ max (((m * m').log2 : ℤ) + (e + e') - 52) (-1074) := by
  by_cases hfull : 2 ^ 52 ≤ m * m'
  · have hlog : 52 ≤ (m * m').log2 := (Nat.le_log2 (Nat.mul_pos hm hm').ne').mpr hfull
    omega
  · have hle := Nat.le_mul_of_pos_right m hm'
    have hle' := Nat.le_mul_of_pos_left m' hm
    have he := h.full.resolve_left (by omega)
    have he' := h'.full.resolve_left (by omega)
    omega

theorem holds_pack_mul_iff_takes (hf : Proper f) (hg : Proper g) {x y : ℚ}
    (hx : number? f = some x) (hy : number? g = some y) :
    w.Holds (Float.Model.pack (UnpackedFloat.mul Format.binary64 f g)) ↔ w.Takes (x * y) := by
  cases f with
  | infinity s => cases hx
  | notANumber => cases hx
  | zero s =>
    cases hx
    rw [zero_mul]
    cases g with
    | infinity s' => cases hy
    | notANumber => cases hy
    | zero s' => exact w.holds_pack_iff nofun rfl
    | finite s' m' e' hm' => exact w.holds_pack_iff nofun rfl
  | finite s m e hm =>
    cases g with
    | infinity s' => cases hy
    | notANumber => cases hy
    | zero s' =>
      cases hy
      rw [mul_zero]
      exact w.holds_pack_iff nofun rfl
    | finite s' m' e' hm' =>
      cases hx
      cases hy
      have hvalue : ((m * m' : ℕ) : ℚ) * 2 ^ (e + e') = m * 2 ^ e * (m' * 2 ^ e') := by
        rw [zpow_add₀ two_ne_zero]
        push_cast
        ring
      rw [← signed_mul, ← hvalue]
      exact w.holds_roundWithAccuracy_iff (Nat.mul_pos hm hm')
        (mul_exponent_le (hf s m e hm rfl).1 (hg s' m' e' hm' rfl).1 hm hm') _

theorem holds_mul_iff : w.Holds (a * b) ↔
    ∃ x y, real? a = some x ∧ real? b = some y ∧ w.Takes (x * y) :=
  w.holds_pack_iff_exists lost_mul fun _ _ =>
    w.holds_pack_mul_iff_takes (proper_unpack a) (proper_unpack b)

end Window

/-! ## Casts -/

/-- The cast to `int64_t` is defined: the integer part fits. -/
def CastFits (d : Float.Model) : Prop := ∃ v, real? d = some v ∧ InI64 (toInt v)

/-- The doubles whose integer part fits. -/
def i64Window : Window where
  below := ⟨2 ^ 52, 11, by unfold Normal; norm_num, by norm_num, by norm_num⟩
  above := ⟨2 ^ 53 - 1, 10, by unfold Normal; norm_num, by norm_num, by norm_num⟩

theorem i64Window_val : i64Window.below.val = 2 ^ 63 ∧ i64Window.above.val = 2 ^ 63 - 1024 := by
  unfold i64Window Bound.val
  norm_num

theorem i64Window_next : i64Window.below.next = 2 ^ 63 + 2048 ∧ i64Window.above.next = 2 ^ 63 := by
  unfold i64Window Bound.next
  norm_num

theorem castFits_iff (d : Float.Model) : CastFits d ↔ i64Window.Holds d := by
  obtain ⟨hbelow, habove⟩ := i64Window_val
  obtain ⟨hbelow', habove'⟩ := i64Window_next
  constructor
  · rintro ⟨v, hv, hfits⟩
    obtain ⟨h₁, h₂⟩ := (inI64_toInt_iff v).mp hfits
    rw [i64Window.holds_iff_lt hv, hbelow', habove']
    exact ⟨by linarith, h₂⟩
  · rintro ⟨v, hv, h₁, h₂⟩
    rw [hbelow] at h₁
    rw [habove] at h₂
    exact ⟨v, hv, (inI64_toInt_iff v).mpr ⟨by linarith, by linarith⟩⟩

end Binary64

end Foundation
