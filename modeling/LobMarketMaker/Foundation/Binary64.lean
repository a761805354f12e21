import LobMarketMaker.Foundation.Double

/-!
# The machine's doubles

`Float.Model` is the IEEE format `binary64`: its sums are rounded to `53` significant bits. All
integers up to `2 ^ 53` have that many, so sums and differences of them are exact; the next integer
does not fit.

* `IsInt f n`: the unpacked float `f` is the integer `n`; `isInt_normalize`: what rounding an
  integer of that size gives; `IsInt.add`, `IsInt.neg`, `IsInt.toInt`, `IsInt.unpack_pack`;
* **`exactUpTo_binary64`**: sums and differences of integers up to `2 ^ 53` are exact;
* `NonNeg`, **`truncNonneg_binary64`**: products keep the sign, whatever they are rounded to.
-/

set_option autoImplicit false

namespace Foundation

open Float.Model Float.Model.UnpackedFloat

instance : Double Float.Model where
  ofInt := Float.Model.ofInt
  toInt x := x.toInt64.toInt
  abs := Float.Model.abs
  decLt := inferInstance
  decLe := inferInstance

namespace Binary64

/-! ## Rounding what fits -/

/-- A mantissa with all its bits. -/
def Normal (m : ℕ) : Prop := 2 ^ 52 ≤ m ∧ m < 2 ^ 53

theorem Normal.pos {m : ℕ} (h : Normal m) : 0 < m := by
  have := h.1
  omega

theorem Normal.log2 {m : ℕ} (h : Normal m) : m.log2 = 52 :=
  (Nat.log2_eq_iff h.pos.ne').mpr h

theorem log2_mul_two_pow {m : ℕ} (hm : m ≠ 0) (k : ℕ) : (m * 2 ^ k).log2 = m.log2 + k := by
  obtain ⟨lo, hi⟩ := (Nat.log2_eq_iff hm).mp rfl
  have hk : 0 < 2 ^ k := Nat.two_pow_pos k
  rw [Nat.log2_eq_iff (Nat.mul_ne_zero hm hk.ne'), pow_add, Nat.add_right_comm, pow_add]
  exact ⟨Nat.mul_le_mul_right _ lo, Nat.mul_lt_mul_of_pos_right hi hk⟩

theorem shiftRight_exact (m k : ℕ) :
    (⟨m * 2 ^ k, false, false⟩ : ExtendedMantissa) >>> k = ⟨m, false, false⟩ := by
  show Nat.repeat ExtendedMantissa.shiftRightOne k ⟨m * 2 ^ k, false, false⟩ = _
  induction k generalizing m with
  | zero => rw [pow_zero, mul_one]; rfl
  | succ k ih =>
    have hm : m * 2 ^ (k + 1) = 2 * m * 2 ^ k := by ring
    rw [hm]
    show (Nat.repeat ExtendedMantissa.shiftRightOne k ⟨2 * m * 2 ^ k, false, false⟩).shiftRightOne = _
    rw [ih]
    simp [ExtendedMantissa.shiftRightOne]

theorem targetExponent_eq {m : ℕ} {e t : ℤ} (h : m.log2 + e = 52 + t) (ht : -1074 ≤ t) :
    Format.binary64.targetExponent (totalExponent m e) = t := by
  have hmin : Format.binary64.minExponent = -1074 := rfl
  have hbits : (Format.binary64.mantissaBits : ℤ) = 53 := rfl
  unfold Format.targetExponent totalExponent
  rw [hmin, hbits]
  omega

theorem shiftToTargetExponent_exact {m : ℕ} (h : Normal m) (k : ℕ) {e t : ℤ} (he : e + k = t)
    (ht : -1074 ≤ t) : shiftToTargetExponent Format.binary64 (m * 2 ^ k) e .exact =
      (⟨m, false, false⟩, t) := by
  have hlog : ((m * 2 ^ k).log2 : ℤ) + e = 52 + t := by
    rw [log2_mul_two_pow h.pos.ne', h.log2, ← he]
    push_cast
    ring
  have hk : (t - e).toNat = k := by omega
  unfold shiftToTargetExponent shiftToExponent
  rw [targetExponent_eq hlog ht]
  dsimp only
  rw [hk]
  exact Prod.ext (shiftRight_exact m k) he

theorem roundWithAccuracy_exact {m : ℕ} (h : Normal m) (s : Sign) (k : ℕ) {e t : ℤ}
    (he : e + k = t) (ht : -1074 ≤ t) :
    roundWithAccuracy Format.binary64 s (m * 2 ^ k) e .exact = .finite s m t h.pos := by
  have h₂ := shiftToTargetExponent_exact h 0 (add_zero t) ht
  rw [pow_zero, mul_one] at h₂
  have hm : (⟨m, false, false⟩ : ExtendedMantissa).roundedMantissa = m := rfl
  unfold roundWithAccuracy
  rw [shiftToTargetExponent_exact h k he ht]
  dsimp only
  rw [hm, h₂]
  exact dif_neg h.pos.ne'

/-- **Rounding** `M * 2 ^ (i - 52)`, when it is `m * 2 ^ (j - 52)` with a normal mantissa. -/
theorem round_exact {m : ℕ} (h : Normal m) (s : Sign) {M i j : ℕ} (hM : M * 2 ^ i = m * 2 ^ j) :
    UnpackedFloat.round Format.binary64 s M (i - 52) = .finite s m (j - 52) h.pos := by
  have hM0 : M ≠ 0 := by
    rintro rfl
    rw [zero_mul] at hM
    exact (Nat.mul_pos h.pos (Nat.two_pow_pos j)).ne hM
  have hlog : M.log2 + i = 52 + j := by
    rw [← log2_mul_two_pow hM0, hM, log2_mul_two_pow h.pos.ne', h.log2]
  have ht : Format.binary64.targetExponent (totalExponent M (i - 52)) = (j : ℤ) - 52 :=
    targetExponent_eq (by omega) (by omega)
  unfold UnpackedFloat.round decreaseExponent
  dsimp only
  rw [ht, Nat.shiftLeft_eq]
  rcases le_total j i with hij | hij
  · -- the mantissa is shifted up to all its bits
    obtain ⟨k, rfl⟩ := Nat.exists_eq_add_of_le hij
    have hk : (((j + k : ℕ) : ℤ) - 52 - ((j : ℤ) - 52)).toNat = k := by omega
    have hm : M * 2 ^ k = m * 2 ^ 0 := by
      refine Nat.eq_of_mul_eq_mul_right (Nat.two_pow_pos j) ?_
      rw [pow_zero, mul_one, ← hM, pow_add]
      ring
    rw [hk, hm]
    exact roundWithAccuracy_exact h s 0 (by push_cast; ring) (by omega)
  · -- the bits beyond are zeros
    obtain ⟨k, rfl⟩ := Nat.exists_eq_add_of_le hij
    have hk : ((i : ℤ) - 52 - (((i + k : ℕ) : ℤ) - 52)).toNat = 0 := by omega
    have hm : M * 2 ^ 0 = m * 2 ^ k := by
      refine Nat.eq_of_mul_eq_mul_right (Nat.two_pow_pos i) ?_
      rw [pow_zero, mul_one, hM, pow_add]
      ring
    rw [hk, hm]
    exact roundWithAccuracy_exact h s k (by push_cast; ring) (by omega)

/-! ## Integers -/

/-- The float is the integer `n`; its unit bit is `2 ^ (j - 52)`. -/
inductive IsInt : UnpackedFloat → ℤ → Prop
  | zero (s : Sign) : IsInt (.zero s) 0
  | finite (s : Sign) (m j N : ℕ) (h : Normal m) (hj : j ≤ 53) (value : m * 2 ^ j = N * 2 ^ 52) :
      IsInt (.finite s m (j - 52) h.pos) (s.apply N)

theorem exists_normal {N : ℕ} (h0 : 0 < N) (hN : N ≤ 2 ^ 53) :
    ∃ m j, Normal m ∧ j ≤ 53 ∧ m * 2 ^ j = N * 2 ^ 52 := by
  obtain ⟨lo, hi⟩ := (Nat.log2_eq_iff h0.ne').mp rfl
  by_cases hj : N.log2 ≤ 52
  · have hpow : 2 ^ (52 - N.log2) * 2 ^ N.log2 = 2 ^ 52 := by
      rw [← pow_add, Nat.sub_add_cancel hj]
    have hpos : 0 < 2 ^ (52 - N.log2) := Nat.two_pow_pos _
    refine ⟨N * 2 ^ (52 - N.log2), N.log2, ⟨?_, ?_⟩, by omega, ?_⟩
    · rw [← hpow, mul_comm]
      exact Nat.mul_le_mul_right _ lo
    · have h53 : 2 ^ 53 = 2 ^ (N.log2 + 1) * 2 ^ (52 - N.log2) := by
        rw [← pow_add]
        congr 1
        omega
      rw [h53]
      exact Nat.mul_lt_mul_of_pos_right hi hpos
    · rw [mul_assoc, hpow]
  · have hlog : 2 ^ 53 ≤ 2 ^ N.log2 := Nat.pow_le_pow_right (by omega) (by omega)
    have hN' : N = 2 ^ 53 := le_antisymm hN (hlog.trans lo)
    subst hN'
    exact ⟨2 ^ 52, 53, ⟨le_refl _, Nat.pow_lt_pow_right (by omega) (by omega)⟩, le_refl _, mul_comm _ _⟩

theorem apply_mul (s : Sign) (x i : ℕ) : s.apply x * 2 ^ i = s.apply (x * 2 ^ i : ℕ) := by
  cases s
  · show -(x : ℤ) * 2 ^ i = -((x * 2 ^ i : ℕ) : ℤ)
    push_cast
    ring
  · show (x : ℤ) * 2 ^ i = ((x * 2 ^ i : ℕ) : ℤ)
    push_cast
    rfl

theorem isInt_round (s : Sign) {K N i : ℕ} (hK : K * 2 ^ i = N * 2 ^ 52) (h0 : 0 < N)
    (hN : N ≤ 2 ^ 53) :
    IsInt (UnpackedFloat.round Format.binary64 s K (i - 52)) (s.apply N) := by
  obtain ⟨m, j, h, hj, hm⟩ := exists_normal h0 hN
  rw [round_exact h s (hK.trans hm.symm)]
  exact .finite s m j N h hj hm

/-- **Rounding an integer**, given in units of `2 ^ (i - 52)`. -/
theorem isInt_normalize {M n : ℤ} {i : ℕ} (hM : M * 2 ^ i = n * 2 ^ 52) (hn : |n| ≤ 2 ^ 53)
    (z : Sign) : IsInt (UnpackedFloat.normalize Format.binary64 M (i - 52) z) n := by
  have hi : (0 : ℤ) < 2 ^ i := by positivity
  have h52 : (0 : ℤ) < 2 ^ 52 := by positivity
  unfold UnpackedFloat.normalize
  rcases lt_trichotomy M 0 with hneg | rfl | hpos
  · have hn0 : n < 0 := neg_of_mul_neg_left (hM ▸ mul_neg_of_neg_of_pos hneg hi) h52.le
    obtain ⟨N, rfl⟩ : ∃ N : ℕ, n = -N := ⟨n.natAbs, by omega⟩
    obtain ⟨K, rfl⟩ : ∃ K : ℕ, M = -K := ⟨M.natAbs, by omega⟩
    have hK : K * 2 ^ i = N * 2 ^ 52 := by
      rw [neg_mul, neg_mul, neg_inj] at hM
      exact_mod_cast hM
    rw [abs_neg, Nat.abs_cast] at hn
    rw [show compare (-(K : ℤ)) 0 = .lt from compare_lt_iff_lt.mpr hneg]
    dsimp only
    rw [neg_neg, Int.toNat_natCast]
    exact isInt_round .negative hK (by omega) (by exact_mod_cast hn)
  · rw [zero_mul, eq_comm, mul_eq_zero, or_iff_left h52.ne'] at hM
    subst hM
    exact .zero z
  · have hn0 : 0 < n := pos_of_mul_pos_left (hM ▸ mul_pos hpos hi) h52.le
    obtain ⟨N, rfl⟩ : ∃ N : ℕ, n = N := ⟨n.natAbs, by omega⟩
    obtain ⟨K, rfl⟩ : ∃ K : ℕ, M = K := ⟨M.natAbs, by omega⟩
    have hK : K * 2 ^ i = N * 2 ^ 52 := by exact_mod_cast hM
    rw [Nat.abs_cast] at hn
    rw [show compare (K : ℤ) 0 = .gt from compare_gt_iff_gt.mpr hpos]
    dsimp only
    rw [Int.toNat_natCast]
    exact isInt_round .positive hK (by omega) (by exact_mod_cast hn)

theorem isInt_ofInt {n : ℤ} (hn : |n| ≤ 2 ^ 53) :
    IsInt (UnpackedFloat.ofInt Format.binary64 n) n := isInt_normalize (i := 52) rfl hn .positive

theorem IsInt.neg {f : UnpackedFloat} {n : ℤ} (h : IsInt f n) : IsInt f.neg (-n) := by
  cases h with
  | zero s => exact .zero _
  | finite s m j N h hj value =>
    have hN : -s.apply N = (-s).apply N := by
      cases s
      · exact neg_neg _
      · rfl
    rw [hN]
    exact .finite (-s) m j N h hj value

theorem decreaseExponent_fst (m j i : ℕ) (h : i ≤ j) :
    (decreaseExponent m (j - 52) (i - 52)).1 * 2 ^ i = m * 2 ^ j := by
  have hk : ((j : ℤ) - 52 - ((i : ℤ) - 52)).toNat = j - i := by omega
  unfold decreaseExponent
  dsimp only
  rw [hk, Nat.shiftLeft_eq, mul_assoc, ← pow_add, Nat.sub_add_cancel h]

theorem IsInt.add {f g : UnpackedFloat} {a b : ℤ} (hf : IsInt f a) (hg : IsInt g b)
    (hab : |a + b| ≤ 2 ^ 53) : IsInt (UnpackedFloat.add Format.binary64 f g) (a + b) := by
  cases hf with
  | zero s =>
    rw [zero_add]
    cases hg with
    | zero t =>
      unfold UnpackedFloat.add
      dsimp only
      split_ifs
      · exact .zero _
      · exact .zero _
    | finite t m j N h hj value => exact .finite t m j N h hj value
  | finite s m j N h hj value =>
    cases hg with
    | zero t =>
      rw [add_zero]
      exact .finite s m j N h hj value
    | finite t m' j' N' h' hj' value' =>
      have hmin : min ((j : ℤ) - 52) ((j' : ℤ) - 52) = ((min j j' : ℕ) : ℤ) - 52 := by omega
      unfold UnpackedFloat.add
      dsimp only
      rw [hmin]
      refine isInt_normalize ?_ hab .positive
      rw [add_mul, add_mul, apply_mul, apply_mul, decreaseExponent_fst m j _ (min_le_left _ _),
        decreaseExponent_fst m' j' _ (min_le_right _ _), value, value', ← apply_mul, ← apply_mul]

theorem IsInt.toInt {f : UnpackedFloat} {n : ℤ} (h : IsInt f n) (lo hi : ℤ) :
    f.toInt lo hi = n := by
  cases h with
  | zero s => rfl
  | finite s m j N h hj value =>
    unfold UnpackedFloat.toInt roundToInt decreaseExponent shiftToExponent
    dsimp only
    rw [sub_zero, Nat.shiftLeft_eq]
    rcases le_total j 52 with hj' | hj'
    · -- the fraction bits are zeros
      obtain ⟨k, hk⟩ := Nat.exists_eq_add_of_le hj'
      have hup : ((j : ℤ) - 52).toNat = 0 := by omega
      have hdown : (0 - ((j : ℤ) - 52 - ((0 : ℕ) : ℤ))).toNat = k := by omega
      have hm : m * 2 ^ 0 = N * 2 ^ k := by
        refine Nat.eq_of_mul_eq_mul_right (Nat.two_pow_pos j) ?_
        rw [pow_zero, mul_one, value, hk, pow_add]
        ring
      rw [hup, hdown, hm]
      exact congrArg (fun em : ExtendedMantissa => s.apply em.mantissa) (shiftRight_exact N k)
    · -- there are no fraction bits
      obtain ⟨k, rfl⟩ := Nat.exists_eq_add_of_le hj'
      have hup : (((52 + k : ℕ) : ℤ) - 52).toNat = k := by omega
      have hdown : (0 - (((52 + k : ℕ) : ℤ) - 52 - (k : ℤ))).toNat = 0 := by omega
      have hm : m * 2 ^ k = N := by
        refine Nat.eq_of_mul_eq_mul_right (Nat.two_pow_pos 52) ?_
        rw [← value, pow_add]
        ring
      rw [hup, hdown, hm]
      rfl

/-! ## The packed format -/

theorem ofBitVec_toBitVec (s : Sign) : Sign.ofBitVec s.toBitVec = s := by cases s <;> rfl

section Packed

variable {spec : Format} (s : Sign) (e : BitVec spec.exponentBits)
  (m : BitVec spec.mantissaBitsWithoutImplicit)

theorem unpackSign_packComponents : unpackSign (packComponents spec s e m) = s.toBitVec := by
  refine BitVec.eq_of_getLsbD_eq fun i hi => ?_
  obtain rfl : i = 0 := by omega
  show ((BitVec.extractLsb _ _ (s.toBitVec ++ e ++ m)).cast _).getLsbD 0 = s.toBitVec.getLsbD 0
  simp [BitVec.getLsbD_append, BitVec.getElem_append]

theorem append_pos : 0 < (1#1 ++ m).toNat := by simp

theorem unpack_packComponents {e : BitVec spec.exponentBits} (hne : e ≠ -1#_) (hne' : e ≠ 0#_) :
    UnpackedFloat.unpack spec (packComponents spec s e m) =
      .finite s (1#1 ++ m).toNat (e.toNat - (spec.exponentBias + spec.mantissaBitsWithoutImplicit))
        (append_pos m) := by
  have he : unpackExponent (packComponents spec s e m) = e := unpackExponent_packComponents
  have hm : unpackMantissa (packComponents spec s e m) = m := unpackMantissa_packComponents
  unfold UnpackedFloat.unpack
  dsimp only
  rw [if_neg (he.trans_ne hne), if_neg (he.trans_ne hne')]
  refine (UnpackedFloat.finite.injEq ..).mpr ⟨?_, ?_, ?_⟩
  · rw [unpackSign_packComponents, ofBitVec_toBitVec]
  · rw [hm]
  · rw [he]

end Packed

theorem append_ofNat {m : ℕ} (h : Normal m) : (1#1 ++ BitVec.ofNat 52 m).toNat = m := by
  have hlt : m % 2 ^ 52 < 2 ^ 52 := Nat.mod_lt _ (by positivity)
  have hm : (BitVec.ofNat 52 m).toNat = m % 2 ^ 52 := BitVec.toNat_ofNat _ _
  obtain ⟨lo, hi⟩ := h
  rw [BitVec.toNat_append, hm, ← Nat.shiftLeft_add_eq_or_of_lt hlt, Nat.shiftLeft_eq]
  show 1 * 2 ^ 52 + m % 2 ^ 52 = m
  omega

theorem toNat_exponent {b : ℕ} (hb : b < 2047) : (BitVec.ofNat 11 b).toNat = b := by
  rw [BitVec.toNat_ofNat]
  exact Nat.mod_eq_of_lt (by omega)

theorem pack_finite {m : ℕ} {e : ℤ} (h : Normal m) (lo : -1074 ≤ e) (hi : e ≤ 971) (s : Sign) :
    UnpackedFloat.pack Format.binary64 (.finite s m e h.pos) =
      packComponents Format.binary64 s (BitVec.ofNat 11 (e + 1075).toNat) (BitVec.ofNat 52 m) := by
  have hb : (e + (1023 : ℕ) + (52 : ℕ)).toNat = (e + 1075).toNat := by omega
  have hbias : Format.binary64.exponentBias = 1023 := rfl
  have hlog : m.log2 + 1 = Format.binary64.mantissaBits := by
    rw [h.log2]
    rfl
  have hle : ¬ 2 ^ 11 ≤ (e + 1075).toNat + 1 := by omega
  unfold UnpackedFloat.pack
  dsimp only
  rw [hbias, hb, if_neg hle, if_pos hlog]

/-- **Packing loses nothing** of a float with all its bits. -/
theorem unpack_pack_finite {m : ℕ} {e : ℤ} (h : Normal m) (lo : -1074 ≤ e) (hi : e ≤ 971)
    (s : Sign) : (Float.Model.pack (.finite s m e h.pos)).unpack = .finite s m e h.pos := by
  show UnpackedFloat.unpack Format.binary64
    (UnpackedFloat.pack Format.binary64 (.finite s m e h.pos)) = .finite s m e h.pos
  obtain ⟨b, hb⟩ : ∃ b : ℕ, e = b - 1075 := ⟨(e + 1075).toNat, by omega⟩
  have hexp : (e + 1075).toNat = b := by omega
  have he := toNat_exponent (b := b) (by omega)
  have hne : BitVec.ofNat 11 b ≠ -1#11 := by
    intro hc
    have hmax : (-1#11).toNat = 2047 := rfl
    rw [hc, hmax] at he
    omega
  have hne' : BitVec.ofNat 11 b ≠ 0#11 := by
    intro hc
    have hzero : (0#11).toNat = 0 := rfl
    rw [hc, hzero] at he
    omega
  have hbias : Format.binary64.exponentBias = 1023 := rfl
  rw [pack_finite h lo hi, hexp, unpack_packComponents s _ hne hne']
  refine (UnpackedFloat.finite.injEq ..).mpr ⟨rfl, append_ofNat h, ?_⟩
  rw [he, hbias, hb]
  show (b : ℤ) - ((1023 : ℕ) + (52 : ℕ)) = b - 1075
  omega

theorem IsInt.unpack_pack {f : UnpackedFloat} {n : ℤ} (h : IsInt f n) :
    (Float.Model.pack f).unpack = f := by
  cases h with
  | zero s =>
    show UnpackedFloat.unpack Format.binary64 (UnpackedFloat.pack Format.binary64 (.zero s)) = .zero s
    cases s <;> rfl
  | finite s m j N h hj value => exact unpack_pack_finite h (by omega) (by omega) s

/-! ## Doubles -/

theorem isInt_unpack {n : ℤ} (hn : |n| ≤ 2 ^ 53) : IsInt (Float.Model.ofInt n).unpack n := by
  have h := isInt_ofInt hn
  show IsInt (Float.Model.pack (UnpackedFloat.ofInt Format.binary64 n)).unpack n
  rw [h.unpack_pack]
  exact h

theorem toInt_of_isInt {f : UnpackedFloat} {n : ℤ} (h : IsInt f n) (hn : |n| ≤ 2 ^ 53) :
    Double.toInt (Float.Model.pack f) = n := by
  obtain ⟨lo, hi⟩ := abs_le.mp hn
  have hmin : Int64.minValue.toInt = -2 ^ 63 := rfl
  have hmax : Int64.maxValue.toInt = 2 ^ 63 - 1 := rfl
  show (Int64.ofIntClamp ((Float.Model.pack f).unpack.toInt _ _)).toInt = n
  rw [h.unpack_pack, h.toInt]
  exact Int64.toInt_ofIntClamp (by omega) (by omega)

/-- **The machine's doubles are exact up to `2 ^ 53`.** -/
instance exactUpTo_binary64 : ExactUpTo Float.Model (2 ^ 53) where
  toInt_add a b ha hb hab := by
    exact toInt_of_isInt ((isInt_unpack ha).add (isInt_unpack hb) hab) hab
  toInt_sub a b ha hb hab := by
    have hneg : (-Float.Model.ofInt b).unpack = (Float.Model.ofInt b).unpack.neg :=
      (isInt_unpack hb).neg.unpack_pack
    have hadd := (isInt_unpack ha).add (isInt_unpack hb).neg (by rwa [← sub_eq_add_neg])
    show Double.toInt (Float.Model.ofInt a + -Float.Model.ofInt b) = a - b
    have hsum : Float.Model.ofInt a + -Float.Model.ofInt b =
        Float.Model.pack (UnpackedFloat.add Format.binary64 (Float.Model.ofInt a).unpack
          (Float.Model.ofInt b).unpack.neg) := by
      rw [← hneg]
      rfl
    rw [hsum, toInt_of_isInt hadd (by rwa [← sub_eq_add_neg]), sub_eq_add_neg]

/-! ## Signs -/

/-- At least zero. -/
def NonNeg : UnpackedFloat → Prop
  | .zero _ | .finite .positive .. | .infinity .positive => True
  | _ => False

theorem le_iff_nonNeg {x : Float.Model} : Float.Model.ofInt 0 ≤ x ↔ NonNeg x.unpack := by
  have hzero : (Float.Model.ofInt 0).unpack = .zero .positive := rfl
  show (Float.Model.ofInt 0).unpack.le x.unpack = true ↔ _
  rw [hzero]
  rcases x.unpack with (_ | _) | _ | s | ⟨_ | _, m, e, hm⟩ <;>
    first
      | exact iff_of_true rfl trivial
      | exact iff_of_false Bool.noConfusion id

theorem nonNeg_roundWithAccuracy (spec : Format) (m : ℕ) (e : ℤ) (acc : Accuracy) :
    NonNeg (roundWithAccuracy spec .positive m e acc) := by
  unfold roundWithAccuracy
  dsimp only
  by_cases hzero : (shiftToTargetExponent spec (shiftToTargetExponent spec m e acc).1.roundedMantissa
    (shiftToTargetExponent spec m e acc).2 .exact).1.mantissa = 0
  · rw [dif_pos hzero]
    exact trivial
  · rw [dif_neg hzero]
    exact trivial

theorem nonNeg_ofInt {n : ℤ} (hn : 0 ≤ n) : NonNeg (UnpackedFloat.ofInt Format.binary64 n) := by
  unfold UnpackedFloat.ofInt UnpackedFloat.normalize
  cases h : compare n 0 with
  | lt => exact absurd (compare_lt_iff_lt.mp h) (not_lt.mpr hn)
  | eq => exact trivial
  | gt =>
    unfold UnpackedFloat.round
    exact nonNeg_roundWithAccuracy _ _ _ _

theorem nonNeg_mul {f g : UnpackedFloat} (hf : NonNeg f) (hg : NonNeg g) :
    UnpackedFloat.mul Format.binary64 f g = .notANumber ∨
      NonNeg (UnpackedFloat.mul Format.binary64 f g) := by
  rcases f with (_ | _) | _ | s | ⟨_ | _, m, e, hm⟩ <;>
    rcases g with (_ | _) | _ | s' | ⟨_ | _, m', e', hm'⟩ <;>
    first
      | exact hf.elim
      | exact hg.elim
      | exact .inl rfl
      | exact .inr trivial
      | exact .inr (nonNeg_roundWithAccuracy _ _ _ _)

theorem nonNeg_unpack_packComponents {e : BitVec Format.binary64.exponentBits} (he : e ≠ -1#_)
    (m : BitVec Format.binary64.mantissaBitsWithoutImplicit) :
    NonNeg (UnpackedFloat.unpack Format.binary64 (packComponents Format.binary64 .positive e m)) := by
  have hs : Sign.ofBitVec (unpackSign (packComponents Format.binary64 .positive e m)) = .positive := by
    rw [unpackSign_packComponents, ofBitVec_toBitVec]
  have he' : unpackExponent (packComponents Format.binary64 .positive e m) = e :=
    unpackExponent_packComponents
  unfold UnpackedFloat.unpack
  dsimp only
  rw [if_neg (he'.trans_ne he), hs]
  by_cases hzero : unpackExponent (packComponents Format.binary64 .positive e m) = 0#_
  · rw [if_pos hzero]
    by_cases hm : unpackMantissa (packComponents Format.binary64 .positive e m) = 0#_
    · rw [dif_pos hm]
      exact trivial
    · rw [dif_neg hm]
      exact trivial
  · rw [if_neg hzero]
    exact trivial

theorem NonNeg.unpack_pack {f : UnpackedFloat} (hf : NonNeg f) :
    NonNeg (Float.Model.pack f).unpack := by
  show NonNeg (UnpackedFloat.unpack Format.binary64 (UnpackedFloat.pack Format.binary64 f))
  rcases f with (_ | _) | _ | (_ | _) | ⟨_ | _, m, e, hm⟩
  · exact hf.elim
  · exact trivial
  · exact hf.elim
  · exact trivial
  · exact trivial
  · exact hf.elim
  · unfold UnpackedFloat.pack
    dsimp only
    split_ifs with hover hnormal
    · exact trivial
    · refine nonNeg_unpack_packComponents (fun hc => hover ?_) _
      have htop : (-1#11).toNat = 2047 := rfl
      have hexp := congrArg BitVec.toNat hc
      rw [BitVec.toNat_ofNat] at hexp
      have hmod := Nat.mod_le (e + Format.binary64.exponentBias +
        Format.binary64.mantissaBitsWithoutImplicit).toNat (2 ^ 11)
      change _ % 2 ^ 11 = (-1#11).toNat at hexp
      show 2 ^ 11 ≤ _
      omega
    · exact nonNeg_unpack_packComponents (by decide) _

theorem NonNeg.toInt_nonneg {f : UnpackedFloat} (hf : NonNeg f) {lo hi : ℤ} (hhi : 0 ≤ hi) :
    0 ≤ f.toInt lo hi := by
  rcases f with (_ | _) | _ | s | ⟨_ | _, m, e, hm⟩
  · exact hf.elim
  · exact hhi
  · exact hf.elim
  · exact le_refl _
  · exact hf.elim
  · exact Int.natCast_nonneg _

theorem toInt_ofIntClamp_nonneg {i : ℤ} (hi : 0 ≤ i) : 0 ≤ (Int64.ofIntClamp i).toInt := by
  have hmin : Int64.minValue.toInt = -2 ^ 63 := rfl
  have hmax : Int64.maxValue.toInt = 2 ^ 63 - 1 := rfl
  by_cases hle : i ≤ Int64.maxValue.toInt
  · rw [Int64.toInt_ofIntClamp (by omega) (by omega)]
    exact hi
  · unfold Int64.ofIntClamp
    rw [dif_pos (by omega), dif_neg hle]
    exact Int64.toInt_maxValue ▸ (by decide)

/-- **The machine's doubles keep signs.** -/
instance truncNonneg_binary64 : TruncNonneg Float.Model where
  ofInt_nonneg n hn := le_iff_nonNeg.mpr (nonNeg_ofInt hn).unpack_pack
  toInt_mul_nonneg x y hx hy := by
    have hmul := nonNeg_mul (le_iff_nonNeg.mp hx) (le_iff_nonNeg.mp hy)
    show 0 ≤ (Int64.ofIntClamp ((Float.Model.pack (UnpackedFloat.mul Format.binary64 x.unpack
      y.unpack)).unpack.toInt _ _)).toInt
    rcases hmul with hnan | hpos
    · rw [hnan]
      exact (by decide : (0 : ℤ) ≤ (Int64.ofIntClamp 0).toInt)
    · exact toInt_ofIntClamp_nonneg (hpos.unpack_pack.toInt_nonneg (by decide))

end Binary64

end Foundation
