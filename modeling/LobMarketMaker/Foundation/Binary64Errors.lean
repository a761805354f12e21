import LobMarketMaker.Foundation.Binary64Rounding

/-!
# Absolute errors of the machine's doubles

A difference of two doubles may be much smaller than either, or zero. It is still a multiple of the
smaller of their last bits; on a grid no result is too small for all its bits, and errors add up.

* `Grid v`: a multiple of `2 ^ (-200)`; `Rounded.grid`: rounding does not leave the grid;
* `Value d v`: the double `d` is the number `v`, which may be negative or zero;
  `Value.add`, `Value.sub`, `Value.mul`: one operation; `IsNormal.lt_iff`: a comparison;
* `Within d v u`: the double `d` is within `u` of `v`; `Near d v u`: and on the grid; `Near.add`,
  `Near.sub`, `Near.mul`, `Near.mul_right`: through a calculation.
-/

set_option autoImplicit false

namespace Foundation

open Float.Model Float.Model.UnpackedFloat

namespace Binary64

variable {f g : UnpackedFloat} {a b c d : Float.Model} {s s' : Sign} {k : ℕ} {t e : ℤ}
  {v w x y z : ℚ}

/-! ## The grid -/

/-- A multiple of `2 ^ (-200)`. -/
def Grid (v : ℚ) : Prop := ∃ i : ℤ, v * 2 ^ 200 = i

theorem grid_zero : Grid 0 := ⟨0, by norm_num⟩

theorem Grid.neg (h : Grid v) : Grid (-v) := by
  obtain ⟨i, hi⟩ := h
  exact ⟨-i, by push_cast; linarith⟩

theorem Grid.add (h : Grid v) (h' : Grid w) : Grid (v + w) := by
  obtain ⟨i, hi⟩ := h
  obtain ⟨j, hj⟩ := h'
  exact ⟨i + j, by push_cast; linarith⟩

theorem Grid.sub (h : Grid v) (h' : Grid w) : Grid (v - w) := sub_eq_add_neg v w ▸ h.add h'.neg

theorem Grid.intCast_mul (h : Grid v) (n : ℤ) : Grid (n * v) := by
  obtain ⟨i, hi⟩ := h
  exact ⟨n * i, by push_cast; rw [mul_assoc, hi]⟩

theorem Grid.abs (h : Grid v) : Grid |v| := by
  rcases abs_choice v with hv | hv <;> rw [hv]
  · exact h
  · exact h.neg

theorem Grid.inRange (h : Grid x) (h0 : 0 < x) (hx : x ≤ 2 ^ 250) : InRange x := by
  obtain ⟨i, hi⟩ := h
  have hpos : (0 : ℚ) < i := hi ▸ mul_pos h0 (by norm_num)
  have hone : (1 : ℚ) ≤ i := by exact_mod_cast hpos
  have hlow : (2 : ℚ) ^ (-1000 : ℤ) ≤ 2 ^ (-200 : ℤ) := zpow_le_zpow_right₀ one_le_two (by norm_num)
  have hhigh : (2 : ℚ) ^ 250 ≤ 2 ^ (1000 : ℤ) := by
    rw [← zpow_natCast]
    exact zpow_le_zpow_right₀ one_le_two (by norm_num)
  have hunit : (2 : ℚ) ^ (-200 : ℤ) * 2 ^ 200 = 1 := by
    rw [← zpow_natCast, ← zpow_add₀ two_ne_zero]
    exact zpow_zero _
  refine ⟨hlow.trans (le_of_mul_le_mul_right ?_ (by norm_num : (0 : ℚ) < 2 ^ 200)), hx.trans hhigh⟩
  rw [hunit, hi]
  exact hone

theorem grid_zpow (R : ℕ) (ht : -200 ≤ t) : Grid (R * 2 ^ t) := by
  obtain ⟨j, hj⟩ : ∃ j : ℕ, t + 200 = j := ⟨(t + 200).toNat, by omega⟩
  refine ⟨(R * 2 ^ j : ℕ), ?_⟩
  have hpow : (2 : ℚ) ^ t * 2 ^ 200 = 2 ^ j := by
    rw [← zpow_natCast, ← zpow_add₀ two_ne_zero, ← zpow_natCast, ← hj]
    rfl
  rw [mul_assoc, hpow]
  push_cast
  rfl

/-- **Rounding stays on the grid**: below its spacing nothing is rounded. -/
theorem grid_of_abs_sub_le {R : ℕ} (hx : Grid x) (h : |(R : ℚ) * 2 ^ t - x| ≤ 2 ^ t / 2) :
    Grid (R * 2 ^ t) := by
  by_cases ht : -200 ≤ t
  · exact grid_zpow R ht
  · obtain ⟨i, hi⟩ := hx
    obtain ⟨j, hj⟩ : ∃ j : ℕ, -200 - t = j := ⟨(-200 - t).toNat, by omega⟩
    have hpow : (0 : ℚ) < 2 ^ t := zpow_pos two_pos _
    have hunit : (2 : ℚ) ^ t * 2 ^ j * 2 ^ 200 = 1 := by
      rw [← zpow_natCast, ← zpow_natCast, ← zpow_add₀ two_ne_zero, ← zpow_add₀ two_ne_zero, ← hj]
      have hexp : t + (-200 - t) + (200 : ℕ) = 0 := by omega
      rw [hexp, zpow_zero]
    have hmultiple : x = (i * 2 ^ j : ℤ) * 2 ^ t := by
      push_cast
      calc x = x * (2 ^ t * 2 ^ j * 2 ^ 200) := by rw [hunit, mul_one]
        _ = x * 2 ^ 200 * (2 ^ t * 2 ^ j) := by ring
        _ = i * 2 ^ j * 2 ^ t := by rw [hi]; ring
    -- two integers at most one half apart
    rw [hmultiple, ← sub_mul, abs_mul, abs_of_pos hpow, div_eq_mul_one_div, mul_comm] at h
    have hhalf := le_of_mul_le_mul_left h hpow
    have hlt : |((R : ℤ) - i * 2 ^ j : ℤ)| < 1 := by
      have : ((|((R : ℤ) - i * 2 ^ j : ℤ)| : ℤ) : ℚ) < ((1 : ℤ) : ℚ) := by
        push_cast at hhalf ⊢
        linarith
      exact_mod_cast this
    have heq : (R : ℤ) = i * 2 ^ j := sub_eq_zero.mp (Int.abs_lt_one_iff.mp hlt)
    have hR : (R : ℚ) = ((i * 2 ^ j : ℤ) : ℚ) := by exact_mod_cast heq
    rw [hR, ← hmultiple]
    exact ⟨i, hi⟩

/-! ## Signed values -/

/-- A magnitude with its sign. -/
def signed (s : Sign) (y : ℚ) : ℚ :=
  match s with
  | .positive => y
  | .negative => -y

theorem abs_signed_sub (s : Sign) (y x : ℚ) : |signed s y - signed s x| = |y - x| := by
  cases s
  · show |-y - -x| = _
    rw [neg_sub_neg, abs_sub_comm]
  · rfl

theorem abs_signed (s : Sign) (y : ℚ) : |signed s y| = |y| := by
  cases s
  · exact abs_neg y
  · rfl

theorem Grid.signed (h : Grid v) (s : Sign) : Grid (signed s v) := by
  cases s
  · exact h.neg
  · exact h

theorem signed_mul (s s' : Sign) (y x : ℚ) :
    signed (s * s') (y * x) = signed s y * signed s' x := by
  cases s <;> cases s'
  · exact (neg_mul_neg y x).symm
  · exact (neg_mul y x).symm
  · exact (mul_neg y x).symm
  · rfl

/-- The double is the number `v`. -/
inductive Value (d : Float.Model) : ℚ → Prop
  | zero {s : Sign} (h : d.unpack = .zero s) : Value d 0
  | normal {s : Sign} {y : ℚ} (h : IsNormal d.unpack s y) : Value d (signed s y)

theorem Rounded.value (h : Rounded f s x) (hx : Grid x) :
    ∃ z, Value (Float.Model.pack f) z ∧ Grid z ∧ |z - signed s x| ≤ x * (1 / 2 ^ 53) := by
  obtain ⟨R, t, hn, hhalf, hrel⟩ := h
  have hv : IsNormal (Float.Model.pack f).unpack s (R * 2 ^ t) := hn.unpack_pack.symm ▸ hn
  refine ⟨signed s (R * 2 ^ t), .normal hv, (grid_of_abs_sub_le hx hhalf).signed s, ?_⟩
  rw [abs_signed_sub]
  exact hrel

theorem value_pack_zero (s : Sign) : Value (Float.Model.pack (.zero s)) 0 :=
  .zero (show (Float.Model.pack (.zero s)).unpack = .zero s by cases s <;> rfl)

/-- What a rounded operation with the exact result `x` yields. -/
def Yields (d : Float.Model) (x : ℚ) : Prop :=
  ∃ z, Value d z ∧ Grid z ∧ |z - x| ≤ |x| * (1 / 2 ^ 53)

theorem yields_zero (s : Sign) : Yields (Float.Model.pack (.zero s)) 0 :=
  ⟨0, value_pack_zero s, grid_zero, by norm_num⟩

theorem Value.yields (h : Value a v) (hg : Grid v) : Yields a v :=
  ⟨v, h, hg, by rw [sub_self, abs_zero]; positivity⟩

theorem Value.zero_factor (h : Value d v) (s : Sign) :
    (∃ t, UnpackedFloat.mul Format.binary64 (.zero s) d.unpack = .zero t) ∧
      ∃ t, UnpackedFloat.mul Format.binary64 d.unpack (.zero s) = .zero t := by
  cases h with
  | zero h =>
    rw [h]
    exact ⟨⟨_, rfl⟩, ⟨_, rfl⟩⟩
  | @normal s' y h =>
    generalize d.unpack = f at h
    cases h with
    | mk _ m e h lo hi => exact ⟨⟨s * s', rfl⟩, ⟨s' * s, rfl⟩⟩

theorem Value.mul (ha : Value a v) (hb : Value b w) (hg : Grid (v * w)) (hB : |v * w| ≤ 2 ^ 250) :
    Yields (a * b) (v * w) := by
  have hdef : a * b = Float.Model.pack (UnpackedFloat.mul Format.binary64 a.unpack b.unpack) := rfl
  rw [hdef]
  cases ha with
  | @zero s ha =>
    obtain ⟨t, ht⟩ := (hb.zero_factor s).1
    rw [zero_mul, ha, ht]
    exact yields_zero t
  | @normal s y ha =>
    cases hb with
    | @zero s' hb =>
      obtain ⟨t, ht⟩ := (Value.zero_factor (.normal ha) s').2
      rw [mul_zero, hb, ht]
      exact yields_zero t
    | @normal s' y' hb =>
      have hpos := mul_pos ha.pos hb.pos
      rw [← signed_mul] at hg hB ⊢
      rw [abs_signed, abs_of_pos hpos] at hB
      have hg' := hg.abs
      rw [abs_signed, abs_of_pos hpos] at hg'
      obtain ⟨z, hz, hzg, herror⟩ := (ha.mul hb (hg'.inRange hpos hB)).value hg'
      refine ⟨z, hz, hzg, ?_⟩
      rw [abs_signed, abs_of_pos hpos]
      exact herror

theorem signed_apply (s : Sign) (n : ℕ) (e : ℤ) :
    signed s (n * 2 ^ e) = (s.apply n : ℤ) * 2 ^ e := by
  cases s
  · show -((n : ℚ) * 2 ^ e) = ((-(n : ℤ) : ℤ) : ℚ) * 2 ^ e
    push_cast
    ring
  · show (n : ℚ) * 2 ^ e = ((n : ℤ) : ℚ) * 2 ^ e
    push_cast
    rfl

/-- **Rounding a signed integer** in units of `2 ^ e`. -/
theorem normalize_yields {K : ℤ} (hg : Grid (K * 2 ^ e)) (hB : |(K : ℚ) * 2 ^ e| ≤ 2 ^ 250)
    (t : Sign) :
    Yields (Float.Model.pack (UnpackedFloat.normalize Format.binary64 K e t)) (K * 2 ^ e) := by
  rcases exists_sign K with rfl | ⟨s, M, hM, rfl⟩
  · rw [Int.cast_zero, zero_mul]
    exact yields_zero t
  · have hpow : (0 : ℚ) < 2 ^ e := zpow_pos two_pos _
    have hpos : (0 : ℚ) < M * 2 ^ e := mul_pos (by exact_mod_cast hM) hpow
    rw [← signed_apply] at hg hB ⊢
    have hg' := hg.abs
    rw [abs_signed, abs_of_pos hpos] at hB hg'
    rw [normalize_apply hM]
    obtain ⟨z, hz, hzg, herror⟩ := (round_rounded hM.ne' (hg'.inRange hpos hB) s).value hg'
    refine ⟨z, hz, hzg, ?_⟩
    rw [abs_signed, abs_of_pos hpos]
    exact herror

theorem Value.add (ha : Value a v) (hb : Value b w) (hg : Grid (v + w)) (hB : |v + w| ≤ 2 ^ 250) :
    Yields (a + b) (v + w) := by
  have hdef : a + b = Float.Model.pack (UnpackedFloat.add Format.binary64 a.unpack b.unpack) := rfl
  rw [hdef]
  cases ha with
  | @zero s ha =>
    rw [zero_add] at hg ⊢
    cases hb with
    | @zero s' hb =>
      obtain ⟨t, ht⟩ : ∃ t, UnpackedFloat.add Format.binary64 (.zero s) (.zero s') = .zero t := by
        unfold UnpackedFloat.add
        dsimp only
        split_ifs
        · exact ⟨_, rfl⟩
        · exact ⟨_, rfl⟩
      rw [ha, hb, ht]
      exact yields_zero t
    | @normal s' y hb =>
      have hadd : UnpackedFloat.add Format.binary64 (.zero s) b.unpack = b.unpack := by
        generalize b.unpack = g at hb
        cases hb with
        | mk s' m e h lo hi => rfl
      rw [ha, hadd]
      exact Value.yields (.normal (hb.unpack_pack.symm ▸ hb)) hg
  | @normal s y ha =>
    cases hb with
    | @zero s' hb =>
      have hadd : UnpackedFloat.add Format.binary64 a.unpack (.zero s') = a.unpack := by
        generalize a.unpack = f at ha
        cases ha with
        | mk s m e h lo hi => rfl
      rw [add_zero] at hg ⊢
      rw [hb, hadd]
      exact Value.yields (.normal (ha.unpack_pack.symm ▸ ha)) hg
    | @normal s' y' hb =>
      generalize a.unpack = f at ha
      generalize b.unpack = g at hb
      cases ha with
      | mk s m e h lo hi =>
        cases hb with
        | mk s' m' e' h' lo' hi' =>
          have hsum : UnpackedFloat.add Format.binary64 (.finite s m e h.pos)
              (.finite s' m' e' h'.pos) = UnpackedFloat.normalize Format.binary64
                (s.apply (decreaseExponent m e (min e e')).1 +
                  s'.apply (decreaseExponent m' e' (min e e')).1) (min e e') .positive := rfl
          have hvalue := decreaseExponent_value m (min_le_left e e')
          have hvalue' := decreaseExponent_value m' (min_le_right e e')
          rw [hsum]
          generalize (decreaseExponent m e (min e e')).1 = i at hvalue ⊢
          generalize (decreaseExponent m' e' (min e e')).1 = j at hvalue' ⊢
          have htotal : signed s (m * 2 ^ e) + signed s' (m' * 2 ^ e') =
              ((s.apply i + s'.apply j : ℤ) : ℚ) * 2 ^ min e e' := by
            rw [← hvalue, ← hvalue', signed_apply, signed_apply]
            push_cast
            ring
          rw [htotal] at hg hB ⊢
          exact normalize_yields hg hB .positive

theorem sub_eq_add_neg_unpacked (f g : UnpackedFloat) :
    UnpackedFloat.sub Format.binary64 f g = UnpackedFloat.add Format.binary64 f g.neg := by
  have happly : ∀ (s : Sign) (n : ℤ), (-s).apply n = -s.apply n := fun s n => by
    cases s
    · exact (neg_neg n).symm
    · rfl
  cases f <;> cases g <;> try rfl
  rename_i s m e h s' m' e' h'
  unfold UnpackedFloat.sub UnpackedFloat.add UnpackedFloat.neg
  dsimp only
  rw [happly, sub_eq_add_neg]

theorem Value.neg (h : Value a v) : Value (-a) (-v) ∧ (-a).unpack = a.unpack.neg := by
  have hdef : (-a).unpack = (Float.Model.pack a.unpack.neg).unpack := rfl
  cases h with
  | @zero s h =>
    rw [hdef, h, neg_zero]
    have hz : (Float.Model.pack (UnpackedFloat.neg (.zero s))).unpack = .zero (-s) := by
      cases s <;> rfl
    exact ⟨.zero (hdef.trans ((congrArg (fun f => (Float.Model.pack (UnpackedFloat.neg f)).unpack)
      h).trans hz)), hz⟩
  | @normal s y h =>
    have hneg : IsNormal a.unpack.neg (-s) y := by
      generalize a.unpack = f at h
      cases h with
      | mk s m e h lo hi => exact .mk (-s) m e h lo hi
    have hun := hdef.trans hneg.unpack_pack
    have hsigned : signed (-s) y = -signed s y := by
      cases s
      · exact (neg_neg y).symm
      · rfl
    exact ⟨hsigned ▸ .normal (hun.symm ▸ hneg), hun⟩

theorem Value.sub (ha : Value a v) (hb : Value b w) (hg : Grid (v - w)) (hB : |v - w| ≤ 2 ^ 250) :
    Yields (a - b) (v - w) := by
  obtain ⟨hneg, hun⟩ := hb.neg
  have hsub : a - b = a + -b := by
    show Float.Model.pack (UnpackedFloat.sub Format.binary64 a.unpack b.unpack) =
      Float.Model.pack (UnpackedFloat.add Format.binary64 a.unpack (-b).unpack)
    rw [sub_eq_add_neg_unpacked, hun]
  rw [sub_eq_add_neg] at hg hB ⊢
  rw [hsub]
  exact ha.add hneg hg hB

/-! ## Comparisons -/

theorem value_zero : Value (Float.Model.ofInt 0) 0 :=
  .zero (show (Float.Model.ofInt 0).unpack = .zero .positive from rfl)

theorem IsNormal.abs (h : IsNormal a.unpack s y) :
    IsNormal (Float.Model.abs a).unpack .positive y := by
  have hdef : (Float.Model.abs a).unpack = (Float.Model.pack a.unpack.abs).unpack := rfl
  have habs : IsNormal a.unpack.abs .positive y := by
    generalize a.unpack = f at h
    cases h with
    | mk s m e h lo hi => exact .mk .positive m e h lo hi
  exact (hdef.trans habs.unpack_pack).symm ▸ habs

theorem Value.zero_lt_iff (h : Value a v) : Float.Model.ofInt 0 < a ↔ 0 < v := by
  have hdef : Float.Model.ofInt 0 < a ↔ UnpackedFloat.lt (.zero .positive) a.unpack = true := Iff.rfl
  rw [hdef]
  cases h with
  | @zero s h =>
    rw [h]
    exact iff_of_false (by cases s <;> exact Bool.noConfusion) (lt_irrefl 0)
  | @normal s y h =>
    have hy := h.pos
    generalize a.unpack = f at h
    cases h with
    | mk s m e h lo hi =>
      cases s
      · exact iff_of_false Bool.noConfusion (not_lt.mpr (neg_nonpos.mpr hy.le))
      · exact iff_of_true rfl hy

theorem Value.bne_zero (h : Value a v) (hv : v ≠ 0) : (a != Float.Model.ofInt 0) = true := by
  have hdef : (a != Float.Model.ofInt 0) = !(UnpackedFloat.beq a.unpack (.zero .positive)) := rfl
  rw [hdef]
  cases h with
  | zero h => exact absurd rfl hv
  | @normal s y h =>
    generalize a.unpack = f at h
    cases h with
    | mk s m e h lo hi => cases s <;> rfl

theorem Approx.bne_zero (h : Approx d s k x) : (d != Float.Model.ofInt 0) = true := by
  obtain ⟨y, hy, -⟩ := h
  refine (Value.normal hy).bne_zero fun h0 => hy.pos.ne' ?_
  rw [← abs_eq_zero, ← abs_signed s y, h0, abs_zero]

theorem mul_zero_unpack (ha : a.unpack = .zero s) (hb : b.unpack = .zero s') :
    (a * b).unpack = .zero (s * s') := by
  show (Float.Model.pack (UnpackedFloat.mul Format.binary64 a.unpack b.unpack)).unpack = _
  rw [ha, hb]
  cases s <;> cases s' <;> rfl

theorem mantissa_lt {m m' : ℕ} (h : Normal m) (h' : Normal m') {e e' : ℤ} (he : e < e') :
    (m : ℚ) * 2 ^ e < m' * 2 ^ e' := by
  have hm : (m : ℚ) < 2 ^ 53 := by exact_mod_cast h.2
  have hm' : (2 : ℚ) ^ 52 ≤ m' := by exact_mod_cast h'.1
  have hpow : (2 : ℚ) ^ e * 2 ≤ 2 ^ e' := by
    rw [← zpow_add_one₀ two_ne_zero]
    exact zpow_le_zpow_right₀ one_le_two (by omega)
  calc (m : ℚ) * 2 ^ e < 2 ^ 53 * 2 ^ e := mul_lt_mul_of_pos_right hm (zpow_pos two_pos e)
    _ = 2 ^ 52 * (2 ^ e * 2) := by ring
    _ ≤ m' * 2 ^ e' :=
        mul_le_mul hm' hpow (mul_pos (zpow_pos two_pos e) two_pos).le (Nat.cast_nonneg _)

/-- **Positive doubles** are compared as numbers. -/
theorem IsNormal.lt_iff (ha : IsNormal a.unpack .positive y) (hb : IsNormal b.unpack .positive z) :
    a < b ↔ y < z := by
  have hdef : a < b ↔ UnpackedFloat.lt a.unpack b.unpack = true := Iff.rfl
  rw [hdef]
  generalize a.unpack = f at ha
  generalize b.unpack = g at hb
  cases ha with
  | mk _ m e h lo hi =>
    cases hb with
    | mk _ m' e' h' lo' hi' =>
      have hlt : UnpackedFloat.lt (.finite .positive m e h.pos) (.finite .positive m' e' h'.pos) =
          (some ((compare e e').then (compare m m')) == some .lt) := rfl
      rw [hlt]
      rcases lt_trichotomy e e' with he | rfl | he
      · rw [compare_lt_iff_lt.mpr he]
        exact iff_of_true rfl (mantissa_lt h h' he)
      · have hpow : (0 : ℚ) < 2 ^ e := zpow_pos two_pos e
        rw [compare_eq_iff_eq.mpr rfl, mul_lt_mul_iff_of_pos_right hpow, Nat.cast_lt,
          ← compare_lt_iff_lt]
        show (some (compare m m') == some .lt) = true ↔ _
        cases compare m m' <;> decide
      · rw [compare_gt_iff_gt.mpr he]
        exact iff_of_false Bool.noConfusion (not_lt.mpr (mantissa_lt h' h he).le)

theorem Approx.exact (h : Approx d s 0 x) : IsNormal d.unpack s x := by
  obtain ⟨y, hy, hc⟩ := h
  have hle := hc.le
  have hge := hc.ge
  rw [pow_zero, mul_one] at hle hge
  exact le_antisymm hle hge ▸ hy

theorem value_intCast {n : ℤ} (hn : |n| ≤ 2 ^ 53) : Value (Float.Model.ofInt n) n := by
  rcases exists_sign n with rfl | ⟨s, i, hi, rfl⟩
  · rw [Int.cast_zero]
    exact value_zero
  · have hi' : i ≤ 2 ^ 53 := by
      cases s
      · have := (abs_neg (i : ℤ)).symm.trans_le hn
        rw [Nat.abs_cast] at this
        exact_mod_cast this
      · have : |(i : ℤ)| ≤ 2 ^ 53 := hn
        rw [Nat.abs_cast] at this
        exact_mod_cast this
    have hvalue := Value.normal (approx_ofInt s hi hi').exact
    have hsigned : signed s i = ((s.apply i : ℤ) : ℚ) := by
      have := signed_apply s i 0
      rwa [zpow_zero, mul_one, mul_one] at this
    exact hsigned ▸ hvalue

/-! ## Through a calculation -/

/-- The double is on the grid and within `u` of `v`. -/
def Near (d : Float.Model) (v u : ℚ) : Prop := ∃ z, Value d z ∧ Grid z ∧ |z - v| ≤ u

variable {u u' B : ℚ}

theorem Near.mono (h : Near a v u) (hu : u ≤ u') : Near a v u' := by
  obtain ⟨z, hz, hg, herror⟩ := h
  exact ⟨z, hz, hg, herror.trans hu⟩

theorem Yields.near (h : Yields d x) (hx : |x - v| ≤ u) (hB : |v| ≤ B) (hu : u ≤ B) :
    Near d v (u + B * epsilon) := by
  obtain ⟨z, hz, hg, herror⟩ := h
  refine ⟨z, hz, hg, ?_⟩
  have hsize : |x| ≤ B + B := by
    have := abs_sub_abs_le_abs_sub x v
    linarith
  have hstep : |x| * (1 / 2 ^ 53) ≤ B * epsilon := by
    unfold epsilon
    linarith
  have := abs_sub_le z x v
  linarith

theorem le_of_near (hx : |x - v| ≤ u) (hB : |v| ≤ B) (hu : u ≤ B) (hB' : B ≤ 2 ^ 249) :
    |x| ≤ 2 ^ 250 := by
  have := abs_sub_abs_le_abs_sub x v
  linarith

theorem Near.add (ha : Near a v u) (hb : Near b w u') (hB : |v + w| ≤ B) (hu : u + u' ≤ B)
    (hB' : B ≤ 2 ^ 249) : Near (a + b) (v + w) (u + u' + B * epsilon) := by
  obtain ⟨y, hy, hg, herror⟩ := ha
  obtain ⟨z, hz, hg', herror'⟩ := hb
  have hx : |y + z - (v + w)| ≤ u + u' := by
    rw [add_sub_add_comm]
    exact (abs_add_le _ _).trans (add_le_add herror herror')
  exact (hy.add hz (hg.add hg') (le_of_near hx hB hu hB')).near hx hB hu

theorem Near.sub (ha : Near a v u) (hb : Near b w u') (hB : |v - w| ≤ B) (hu : u + u' ≤ B)
    (hB' : B ≤ 2 ^ 249) : Near (a - b) (v - w) (u + u' + B * epsilon) := by
  obtain ⟨y, hy, hg, herror⟩ := ha
  obtain ⟨z, hz, hg', herror'⟩ := hb
  have hx : |y - z - (v - w)| ≤ u + u' := by
    rw [sub_sub_sub_comm]
    exact (abs_sub _ _).trans (add_le_add herror herror')
  exact (hy.sub hz (hg.sub hg') (le_of_near hx hB hu hB')).near hx hB hu

theorem Near.mul {n : ℤ} (ha : Near a v u) (hc : Value c n) (hB : |n * v| ≤ B)
    (hu : |(n : ℚ)| * u ≤ B) (hB' : B ≤ 2 ^ 249) : Near (c * a) (n * v) (|(n : ℚ)| * u + B * epsilon) := by
  obtain ⟨y, hy, hg, herror⟩ := ha
  have hx : |n * y - n * v| ≤ |(n : ℚ)| * u := by
    rw [← mul_sub, abs_mul]
    exact mul_le_mul_of_nonneg_left herror (abs_nonneg _)
  exact (hc.mul hy (hg.intCast_mul n) (le_of_near hx hB hu hB')).near hx hB hu

theorem Near.mul_right {n : ℤ} (ha : Near a v u) (hc : Value c n) (hB : |v * n| ≤ B)
    (hu : u * |(n : ℚ)| ≤ B) (hB' : B ≤ 2 ^ 249) :
    Near (a * c) (v * n) (u * |(n : ℚ)| + B * epsilon) := by
  obtain ⟨y, hy, hg, herror⟩ := ha
  have hx : |y * n - v * n| ≤ u * |(n : ℚ)| := by
    rw [← sub_mul, abs_mul]
    exact mul_le_mul_of_nonneg_right herror (abs_nonneg _)
  have hgrid : Grid (y * n) := mul_comm (n : ℚ) y ▸ hg.intCast_mul n
  exact (hy.mul hc hgrid (le_of_near hx hB hu hB')).near hx hB hu

/-- The double is within `u` of `v`. -/
def Within (d : Float.Model) (v u : ℚ) : Prop := ∃ z, Value d z ∧ |z - v| ≤ u

theorem Within.mono (h : Within d v u) (hu : u ≤ u') : Within d v u' := by
  obtain ⟨z, hz, herror⟩ := h
  exact ⟨z, hz, herror.trans hu⟩

theorem Near.within (h : Near d v u) : Within d v u := by
  obtain ⟨z, hz, -, herror⟩ := h
  exact ⟨z, hz, herror⟩

theorem Tally.within (h : Tally k d x) (hk : 8 * k * epsilon ≤ 1) :
    Within d x (x * (4 * k * epsilon)) := by
  cases h with
  | zero h => exact ⟨0, .zero h, by norm_num⟩
  | pos h =>
    have hx0 : 0 < x := h.pos
    obtain ⟨y, hy, hc⟩ := h
    have hε := epsilon_nonneg
    have hkε : 0 ≤ (k : ℚ) * epsilon := by positivity
    exact ⟨y, .normal hy, hc.abs_sub_le hε hx0.le (by linarith)⟩

theorem IsNormal.grid (h : IsNormal f s y) (hy : 1 / 2 ^ 100 ≤ y) : Grid y := by
  cases h with
  | mk s m e h lo hi =>
    refine grid_zpow m ?_
    have hm : (m : ℚ) < 2 ^ (53 : ℤ) := by exact_mod_cast h.2
    have hlt : (2 : ℚ) ^ (-100 : ℤ) < 2 ^ (53 + e) := by
      rw [zpow_add₀ two_ne_zero]
      refine lt_of_le_of_lt ?_ (mul_lt_mul_of_pos_right hm (zpow_pos two_pos e))
      refine le_trans (le_of_eq ?_) hy
      norm_num
    have := (zpow_lt_zpow_iff_right₀ (one_lt_two (α := ℚ))).mp hlt
    omega

/-- **From factors to an error.** -/
theorem Approx.near (h : Approx d .positive k x) (hx : 1 / 2 ^ 99 ≤ x) (hk : 8 * k * epsilon ≤ 1) :
    Near d x (x * (4 * k * epsilon)) := by
  have hx0 : 0 < x := h.pos
  obtain ⟨y, hy, hc⟩ := h
  have hε := epsilon_nonneg
  have hkε : 0 ≤ (k : ℚ) * epsilon := by positivity
  have herror := hc.abs_sub_le hε hx0.le (by linarith)
  have hhalf : x * (4 * k * epsilon) ≤ x * (1 / 2) := mul_le_mul_of_nonneg_left (by linarith) hx0.le
  have hlow : 1 / 2 ^ 100 ≤ y := by
    have := (abs_le.mp herror).1
    linarith
  exact ⟨y, .normal hy, hy.grid hlow, herror⟩

end Binary64

end Foundation
