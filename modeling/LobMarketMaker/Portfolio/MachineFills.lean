import LobMarketMaker.Common.MachinePrices
import LobMarketMaker.Foundation.Binary64Errors
import LobMarketMaker.Portfolio.CostBasis

/-!
# One fill in the machine's doubles

Shares are exact on the machine, dollars are rounded. Which path a fill takes depends on shares only,
so the machine takes the one of exact arithmetic.

* `signOf`, `approx_signedFill`, `value_signedFill`, `movePosition_exact`: the shares of a fill;
* `opens_approx`, `extends_approx`: the average after a fill that opens or extends;
* `closing_value`, `difference_near`, `realized_near`: what a fill on the other side realizes;
* `onFill_of_extends`, `onFill_of_not_extends`, `extends_iff_machine`: the paths of a fill.
-/

set_option autoImplicit false

namespace Lob

open Foundation Foundation.Binary64

namespace Portfolio

open Float.Model.UnpackedFloat (Sign)

variable {f : Fill} {position : ℤ} {a P : ℚ} {k n : ℕ}

/-! ## Shares -/

/-- The sign of a number of shares. -/
def signOf (i : ℤ) : Sign := if 0 < i then .positive else .negative

theorem approx_intCast {i : ℤ} (h0 : i ≠ 0) (h : |i| ≤ 2 ^ 53) :
    Approx (ofInt i) (signOf i) 0 (|i| : ℤ) := by
  rw [Int.abs_eq_natAbs] at h
  rcases lt_or_gt_of_ne h0 with hneg | hpos
  · have hi : i = Sign.negative.apply (i.natAbs : ℤ) := show i = -(i.natAbs : ℤ) by omega
    have happrox := approx_ofInt .negative (n := i.natAbs) (by omega) (by omega)
    rw [← hi] at happrox
    rw [signOf, if_neg (not_lt.mpr hneg.le), Int.abs_eq_natAbs]
    exact happrox
  · rw [signOf, if_pos hpos, abs_of_pos hpos]
    exact approx_ofInt_of_pos hpos (by omega)

theorem abs_shares (hf : 0 < f.quantity) : |f.shares| = f.quantity := by
  unfold Fill.shares
  split_ifs
  · exact abs_of_pos hf
  · exact (abs_neg _).trans (abs_of_pos hf)

theorem approx_signedFill (hf : 0 < f.quantity) (h53 : f.quantity ≤ 2 ^ 53) :
    Approx (signedFill f.side f.quantity) (signOf f.shares) 0 (|f.shares| : ℤ) := by
  have happrox := approx_ofInt_of_pos hf h53
  unfold signedFill Fill.shares signOf
  by_cases hside : f.side = .buy
  · rw [if_pos hside, if_pos hside, if_pos hf, abs_of_pos hf]
    exact happrox
  · rw [if_neg hside, if_neg hside, if_neg (not_lt.mpr (neg_nonpos.mpr hf.le)), abs_neg,
      abs_of_pos hf]
    exact happrox.neg

theorem value_signedFill (h53 : |f.quantity| ≤ 2 ^ 53) :
    Value (signedFill f.side f.quantity) f.shares := by
  have hvalue := value_intCast h53
  unfold signedFill Fill.shares
  by_cases hside : f.side = .buy
  · rw [if_pos hside, if_pos hside]
    exact hvalue
  · rw [if_neg hside, if_neg hside, Int.cast_neg]
    exact hvalue.neg.1

theorem movePosition_exact (hf : 0 < f.quantity) (h53 : f.quantity ≤ 2 ^ 53)
    (hp : |position| ≤ 2 ^ 53) (hsum : |position + f.shares| ≤ 2 ^ 53) :
    movePosition Float.Model position f.side f.quantity = position + f.shares := by
  have hq : |f.quantity| ≤ 2 ^ 53 := (abs_of_pos hf).trans_le h53
  unfold movePosition signedFill
  unfold Fill.shares at hsum ⊢
  by_cases hside : f.side = .buy
  · rw [if_pos hside] at hsum ⊢
    rw [if_pos hside]
    exact ExactUpTo.toInt_add position f.quantity hp hq hsum
  · rw [if_neg hside] at hsum ⊢
    rw [if_neg hside]
    exact ExactUpTo.toInt_sub position f.quantity hp hq hsum

/-! ## The average -/

variable {s : PositionState Float.Model}

theorem sign_div_self (t : Sign) : t / t = .positive := by cases t <;> rfl

theorem sign_mul_positive (t : Sign) : t * .positive = t := by cases t <;> rfl

theorem shares_bounds {i : ℤ} (h0 : 0 < i) (hi : i ≤ 2 ^ 53) (hlow : 1 / 10000 ≤ a)
    (hhigh : a ≤ 2 ^ 40) : 1 / 10000 ≤ (i : ℚ) * a ∧ (i : ℚ) * a ≤ 2 ^ 93 := by
  have h₁ : (1 : ℚ) ≤ i := by exact_mod_cast h0
  have h₂ : (i : ℚ) ≤ 2 ^ 53 := by exact_mod_cast hi
  have hle : (i : ℚ) * a ≤ 2 ^ 53 * 2 ^ 40 := mul_le_mul h₂ hhigh (by linarith) (by norm_num)
  have hge : 1 * (1 / 10000) ≤ (i : ℚ) * a := mul_le_mul h₁ hlow (by norm_num) (by linarith)
  constructor <;> linarith

theorem payable_le {p : Price} (hp : p.Payable) : (p.toDouble : ℚ) ≤ 2 ^ 40 := by
  have := hp.bounds.2
  linarith [hp.bounds.1]

/-- **A fill that opens a position.** -/
theorem opens_approx (hf : 0 < f.quantity) (h53 : f.quantity ≤ 2 ^ 53) (hp : f.price.Payable)
    (h0 : s.position = 0) {t : Sign} (havg : s.avgEntryPrice.unpack = .zero t) :
    Approx (extend s (signedFill f.side f.quantity) f.price.toDouble).avgEntryPrice .positive 3
      (f.price.toDouble : ℚ) := by
  have hsf := approx_signedFill hf h53
  have hshares : (0 : ℚ) < (|f.shares| : ℤ) := hsf.pos
  have hzero : (ofInt 0 : Float.Model).unpack = .zero .positive := rfl
  have hnew := hsf.zero_add hzero
  have hle : |f.shares| ≤ 2 ^ 53 := (abs_shares hf).trans_le h53
  obtain ⟨hlow, hhigh⟩ := shares_bounds (i := |f.shares|) (by exact_mod_cast hshares) hle
    hp.bounds.1 (payable_le hp)
  have hterm := hsf.mul hp.approx (Price.moderate_of_le hlow (by linarith)) (by norm_num)
  have hsum := hterm.zero_add (mul_zero_unpack hzero havg)
  have hcancel : ((|f.shares| : ℤ) : ℚ) * f.price.toDouble / (|f.shares| : ℤ) =
      (f.price.toDouble : ℚ) := mul_div_cancel_left₀ _ hshares.ne'
  have hdiv := hsum.div hnew (hcancel.symm ▸ Price.moderate_of_le hp.bounds.1
    ((payable_le hp).trans (by norm_num))) (by norm_num)
  rw [hcancel, sign_mul_positive, sign_div_self] at hdiv
  have hne : (ofInt 0 + signedFill f.side f.quantity != (ofInt 0 : Float.Model)) = true :=
    hnew.bne_zero
  unfold extend
  dsimp only
  rw [h0, if_pos hne]
  exact hdiv

/-- **A fill that extends a position.** -/
theorem extends_approx (hf : 0 < f.quantity) (h53 : f.quantity ≤ 2 ^ 53) (hp : f.price.Payable)
    (h0 : s.position ≠ 0) (hsame : 0 < s.position ↔ 0 < f.shares)
    (hsum : |s.position + f.shares| ≤ 2 ^ 53) (hk : 1 ≤ k) (hk' : k ≤ 2 ^ 49)
    (havg : Approx s.avgEntryPrice .positive k a) (hlow : 1 / 10000 ≤ a) (hhigh : a ≤ 2 ^ 40) :
    Approx (extend s (signedFill f.side f.quantity) f.price.toDouble).avgEntryPrice .positive
      (k + 4) ((s.position * a + f.shares * f.price.toDouble) / (s.position + f.shares)) := by
  have hsign : signOf s.position = signOf f.shares := by
    unfold signOf
    rw [if_congr hsame rfl rfl]
  obtain ⟨I, J, hI, hJ, hIJ, hmean⟩ : ∃ I J : ℤ, I = |s.position| ∧ J = |f.shares| ∧
      I + J = |s.position + f.shares| ∧
      ((s.position * a + f.shares * f.price.toDouble) / (s.position + f.shares) : ℚ) =
        (I * a + J * f.price.toDouble) / (I + J) := by
    refine ⟨_, _, rfl, rfl, ?_, ?_⟩
    · rcases lt_or_gt_of_ne h0 with hneg | hpos
      · have hx : ¬ 0 < f.shares := mt hsame.mpr (not_lt.mpr hneg.le)
        rw [abs_of_neg hneg, abs_of_nonpos (not_lt.mp hx), abs_of_neg (by lia)]
        lia
      · have hx := hsame.mp hpos
        rw [abs_of_pos hpos, abs_of_pos hx, abs_of_pos (by lia)]
    · rcases lt_or_gt_of_ne h0 with hneg | hpos
      · have hx : ¬ 0 < f.shares := mt hsame.mpr (not_lt.mpr hneg.le)
        rw [abs_of_neg hneg, abs_of_nonpos (not_lt.mp hx), ← neg_div_neg_eq]
        push_cast
        congr 1 <;> ring
      · rw [abs_of_pos hpos, abs_of_pos (hsame.mp hpos)]
  have hshares := Fill.shares_ne_zero hf
  have hI0 : 0 < I := hI ▸ abs_pos.mpr h0
  have hJ0 : 0 < J := hJ ▸ abs_pos.mpr hshares
  have hpos := approx_intCast h0 (by lia)
  have hsf := approx_signedFill hf h53
  rw [← hI, hsign] at hpos
  rw [← hJ] at hsf
  -- the cost of the old and of the new shares
  obtain ⟨hgeI, hleI⟩ := shares_bounds hI0 (by lia) hlow hhigh
  obtain ⟨hgeJ, hleJ⟩ := shares_bounds hJ0 (by lia) hp.bounds.1 (payable_le hp)
  have hold := hpos.mul havg (Price.moderate_of_le hgeI (by linarith)) (by omega)
  have hterm := hsf.mul hp.approx (Price.moderate_of_le hgeJ (by linarith)) (by norm_num)
  rw [sign_mul_positive] at hold hterm
  have hnotional := hold.add (hterm.mono (l := 0 + k + 1) (by omega))
    (Price.moderate_of_le (by linarith) (by linarith)) (by omega)
  -- their number
  have hI1 : (1 : ℚ) ≤ I := by exact_mod_cast hI0
  have hJ1 : (1 : ℚ) ≤ J := by exact_mod_cast hJ0
  have hIJ53 : (I : ℚ) + J ≤ 2 ^ 53 := by exact_mod_cast hIJ.trans_le hsum
  have hnew := hpos.add hsf (Price.moderate_of_le (by linarith) (by linarith)) (by norm_num)
  -- their average
  have hlow' : 1 / 10000 ≤ ((I : ℚ) * a + J * f.price.toDouble) / (I + J) := by
    rw [le_div_iff₀ (by linarith)]
    have h₁ := mul_le_mul_of_nonneg_left hlow (by linarith : (0 : ℚ) ≤ I)
    have h₂ := mul_le_mul_of_nonneg_left hp.bounds.1 (by linarith : (0 : ℚ) ≤ J)
    linarith
  have hhigh' : ((I : ℚ) * a + J * f.price.toDouble) / (I + J) ≤ 2 ^ 40 := by
    rw [div_le_iff₀ (by linarith)]
    have h₁ := mul_le_mul_of_nonneg_left hhigh (by linarith : (0 : ℚ) ≤ I)
    have h₂ := mul_le_mul_of_nonneg_left (payable_le hp) (by linarith : (0 : ℚ) ≤ J)
    linarith
  have hdiv := hnotional.div hnew (Price.moderate_of_le hlow' (by linarith)) (by omega)
  rw [sign_div_self] at hdiv
  have hne : (ofInt s.position + signedFill f.side f.quantity != (ofInt 0 : Float.Model)) = true :=
    hnew.bne_zero
  unfold extend
  dsimp only
  rw [if_pos hne, hmean]
  exact hdiv.mono (by omega)

/-! ## What is realized -/

theorem closed_eq (h : f.Opposes position) :
    f.closed position = min |f.shares| |position| * (if position > 0 then 1 else -1) := by
  unfold Fill.closed
  rcases h with ⟨hp, hx⟩ | ⟨hp, hx⟩
  · rw [if_pos hp, abs_of_pos hp, abs_of_neg hx]
    split_ifs <;> lia
  · rw [if_neg (not_lt.mpr hp.le), abs_of_neg hp, abs_of_pos hx]
    split_ifs <;> lia

theorem closing_value (hf : 0 < f.quantity) (h53 : f.quantity ≤ 2 ^ 53) (h0 : position ≠ 0)
    (hp : |position| ≤ 2 ^ 53) :
    Value (fmin (Double.abs (signedFill f.side f.quantity)) (Double.abs (ofInt position)))
      (min |f.shares| |position| : ℤ) := by
  have hsf := (approx_signedFill hf h53).exact.abs
  have hpos := (approx_intCast h0 hp).exact.abs
  have hlt := hpos.lt_iff hsf
  rw [Int.cast_lt] at hlt
  show Value (if Float.Model.abs (ofInt position) < Float.Model.abs (signedFill f.side f.quantity)
    then Float.Model.abs (ofInt position) else Float.Model.abs (signedFill f.side f.quantity)) _
  by_cases h : |position| < |f.shares|
  · rw [if_pos (hlt.mpr h), min_eq_right h.le]
    exact Value.normal (s := .positive) hpos
  · rw [if_neg (mt hlt.mp h), min_eq_left (not_lt.mp h)]
    exact Value.normal (s := .positive) hsf

theorem value_sign (position : ℤ) :
    Value (ofInt (if position > 0 then 1 else -1)) ((if position > 0 then 1 else -1 : ℤ) : ℚ) :=
  value_intCast (by split_ifs <;> norm_num)

/-- **Shares times a difference of prices**, on the machine. -/
theorem difference_near {c d d' : Float.Model} {i : ℤ} {x y u u' : ℚ} (hc : Value c i)
    (hd : Near d x u) (hd' : Near d' y u') (hP : |x - y| ≤ P) (hP' : P ≤ 2 ^ 40)
    (hi : |i| ≤ 2 ^ 53) (hu : u + u' + P * epsilon ≤ P) :
    Near (c * (d - d')) (i * (x - y)) (|(i : ℚ)| * (u + u' + 2 * P * epsilon)) := by
  have hi' : |(i : ℚ)| ≤ 2 ^ 53 := by exact_mod_cast hi
  have hP0 : 0 ≤ P := (abs_nonneg _).trans hP
  have hPε : 0 ≤ P * epsilon := mul_nonneg hP0 epsilon_nonneg
  have hdiff := hd.sub hd' hP (by linarith) (hP'.trans (by norm_num))
  have hsize : |(i : ℚ) * (x - y)| ≤ |(i : ℚ)| * P := by
    rw [abs_mul]
    exact mul_le_mul_of_nonneg_left hP (abs_nonneg _)
  have herror := mul_le_mul_of_nonneg_left hu (abs_nonneg (i : ℚ))
  have hB : |(i : ℚ)| * P ≤ 2 ^ 249 :=
    (mul_le_mul hi' hP' hP0 (by norm_num)).trans (by norm_num)
  exact (hdiff.mul hc hsize herror hB).mono (le_of_eq (by ring))

/-- **A fill on the other side** on the machine. -/
theorem realized_near {r d d' : Float.Model} {ρ x y u u' v B : ℚ} (hopp : f.Opposes position)
    (hf : 0 < f.quantity) (h53 : f.quantity ≤ 2 ^ 53) (hp : |position| ≤ 2 ^ 53)
    (hr : Near r ρ v) (hd : Near d x u) (hd' : Near d' y u') (hP : |x - y| ≤ P) (hP' : P ≤ 2 ^ 40)
    (hu : u + u' + 2 * P * epsilon ≤ P) (hB : |ρ + f.closed position * (x - y)| ≤ B)
    (hv : v + f.quantity * (u + u' + 3 * P * epsilon) ≤ B) (hB' : B ≤ 2 ^ 249) :
    Near (r + fmin (Double.abs (signedFill f.side f.quantity)) (Double.abs (ofInt position)) *
        (d - d') * ofInt (if position > 0 then 1 else -1))
      (ρ + f.closed position * (x - y)) (v + f.quantity * (u + u' + 3 * P * epsilon) + B * epsilon) := by
  have hP0 : 0 ≤ P := (abs_nonneg _).trans hP
  have hPε : 0 ≤ P * epsilon := mul_nonneg hP0 epsilon_nonneg
  have h0 : position ≠ 0 := by
    unfold Fill.Opposes at hopp
    lia
  -- the shares closed
  obtain ⟨c, hc⟩ : ∃ c, c = min |f.shares| |position| := ⟨_, rfl⟩
  have hc0 : 0 ≤ c := hc ▸ le_min (abs_nonneg _) (abs_nonneg _)
  have hcq : c ≤ f.quantity := hc ▸ (min_le_left _ _).trans_eq (abs_shares hf)
  have hc0' : (0 : ℚ) ≤ c := by exact_mod_cast hc0
  have hcq' : (c : ℚ) ≤ f.quantity := by exact_mod_cast hcq
  have hclosing := closing_value hf h53 h0 hp
  rw [← hc] at hclosing
  have hdiff := difference_near hclosing hd hd' hP hP' ((abs_of_nonneg hc0).trans_le (hcq.trans h53))
    (by linarith)
  rw [abs_of_nonneg hc0'] at hdiff
  -- their sign
  have hσ : |(((if position > 0 then 1 else -1 : ℤ) : ℤ) : ℚ)| = 1 := by split_ifs <;> norm_num
  have hsize : |(c : ℚ) * (x - y) * ((if position > 0 then 1 else -1 : ℤ) : ℚ)| ≤ c * P := by
    rw [abs_mul, hσ, mul_one, abs_mul, abs_of_nonneg hc0']
    exact mul_le_mul_of_nonneg_left hP hc0'
  have hw := mul_le_mul_of_nonneg_left hu hc0'
  have hcP : (c : ℚ) * P ≤ 2 ^ 249 := by
    have hc53 : (c : ℚ) ≤ 2 ^ 53 := by exact_mod_cast hcq.trans h53
    exact (mul_le_mul hc53 hP' hP0 (by norm_num)).trans (by norm_num)
  have hsigned := hdiff.mul_right (value_sign position) hsize (by rw [hσ, mul_one]; exact hw) hcP
  have hclosed : (c : ℚ) * (x - y) * ((if position > 0 then 1 else -1 : ℤ) : ℚ) =
      f.closed position * (x - y) := by
    rw [closed_eq hopp, hc, Int.cast_mul]
    ring
  rw [hσ, mul_one, hclosed] at hsigned
  -- the sum
  have hu0 : 0 ≤ u + u' := by
    obtain ⟨_, -, -, h₁⟩ := hd
    obtain ⟨_, -, -, h₂⟩ := hd'
    exact add_nonneg ((abs_nonneg _).trans h₁) ((abs_nonneg _).trans h₂)
  have hle : (c : ℚ) * (u + u' + 2 * P * epsilon) + c * P * epsilon ≤
      f.quantity * (u + u' + 3 * P * epsilon) := by
    have := mul_le_mul_of_nonneg_right hcq' (by linarith : 0 ≤ u + u' + 3 * P * epsilon)
    linarith
  exact hr.add (hsigned.mono hle) hB hv hB'

/-! ## The paths of a fill -/

section Paths

variable {F : Type} [Double F] {p : Portfolio F}

theorem onFill_of_extends (h : p.state.position = 0 ∨
    decide (p.state.position > 0) = decide ((ofInt 0 : F) < signedFill f.side f.quantity)) :
    let s' := (p.onFill f.side f.price f.quantity).state
    s'.avgEntryPrice =
        (extend p.state (signedFill f.side f.quantity) f.price.toDouble).avgEntryPrice ∧
      s'.realizedPnl = p.state.realizedPnl := by
  unfold onFill
  dsimp only
  rw [if_pos h]
  exact ⟨rfl, rfl⟩

theorem onFill_of_not_extends (h : ¬ (p.state.position = 0 ∨
    decide (p.state.position > 0) = decide ((ofInt 0 : F) < signedFill f.side f.quantity))) :
    let s' := (p.onFill f.side f.price f.quantity).state
    s'.avgEntryPrice =
        (reduce p.state (signedFill f.side f.quantity) f.price.toDouble).avgEntryPrice ∧
      s'.realizedPnl =
        (reduce p.state (signedFill f.side f.quantity) f.price.toDouble).realizedPnl := by
  unfold onFill
  dsimp only
  rw [if_neg h]
  exact ⟨rfl, rfl⟩

end Paths

/-- **The machine takes the same path.** -/
theorem extends_iff_machine (h53 : |f.quantity| ≤ 2 ^ 53) : f.Extends position ↔ position = 0 ∨
    decide (position > 0) = decide ((ofInt 0 : Float.Model) < signedFill f.side f.quantity) := by
  have hlt : (ofInt 0 : Float.Model) < signedFill f.side f.quantity ↔ (0 : ℚ) < f.shares :=
    (value_signedFill h53).zero_lt_iff
  rw [decide_eq_decide, hlt, Int.cast_pos]
  exact Iff.rfl

end Portfolio

end Lob
