import LobMarketMaker.Foundation.Binary64
import LobMarketMaker.Pipeline.Simulation

/-!
# Position limits over whole runs

The risk check looks at the position and one new order; that both sides rest at once and fill piece
by piece is covered by the desk's invariant `Desk.Within`.

* `move_exact`: how the position moves, where the arithmetic is exact;
* `after_within`: a limit that `Allow` respects is kept;
* **`position_limit`**: the limit of the risk engine; beyond `2 ^ 53` shares doubles round and the
  limit can be passed (`position_limit_fails`);
* **`inventory_limit`**: the limit at which the strategy tapers its sizes.
-/

set_option autoImplicit false

namespace Lob

open Foundation

namespace Pipeline

section Limits

variable {F : Type} [Double F] {B : ℤ}

theorem move_exact [ExactUpTo F B] (p : ℤ) (s : BookSide) (q : ℤ) (hp : |p| ≤ B) (hq : |q| ≤ B)
    (h : |p + s.sign * q| ≤ B) : move F p s q = p + s.sign * q := by
  cases s with
  | bid =>
    simp only [BookSide.sign, one_mul] at h ⊢
    exact ExactUpTo.toInt_add p q hp hq h
  | ask =>
    simp only [BookSide.sign, neg_one_mul, ← sub_eq_add_neg] at h ⊢
    exact ExactUpTo.toInt_sub p q hp hq h

variable {limits : RiskLimits F} {cfg : StrategyConfig F}

theorem le_of_wrapI64 {x L Q : ℤ} (hQ : 2 * L + Q < 2 ^ 64) (hQ0 : 0 < Q)
    (hx : |x| ≤ L + Q) (hle : wrapI64 x ≤ L) (hge : -L ≤ wrapI64 x) : |x| ≤ L := by
  obtain ⟨h₁, h₂⟩ := abs_le.mp hx
  rw [abs_le]
  by_cases hlow : x < -2 ^ 63
  · rw [wrapI64_of_small hlow (by lia)] at hle
    lia
  · by_cases hhigh : 2 ^ 63 ≤ x
    · rw [wrapI64_of_large hhigh (by lia)] at hge
      lia
    · rw [wrapI64_of_inI64 ⟨by lia, by lia⟩] at hle hge
      exact ⟨hge, hle⟩

/-- What the risk engine lets through keeps its limits, if its `int64_t` sum cannot wrap to within
them. -/
theorem Allow.le {p : ℤ} {s : BookSide} {q : ℤ} (h : Allow limits cfg p s q)
    (hwrap : 2 * limits.maxPosition + limits.maxOrderSize < 2 ^ 64) (hp : |p| ≤ limits.maxPosition) :
    0 < q ∧ q ≤ limits.maxOrderSize ∧ s.sign * p + q ≤ limits.maxPosition := by
  obtain ⟨-, inp, hpass, rfl, hside, rfl⟩ := h
  have hpos := hpass.positive
  have hsize := hpass.size_le
  have hle := hpass.position_le
  have hge := hpass.neg_le_position
  obtain ⟨h₁, h₂⟩ := abs_le.mp hp
  unfold RiskCheckInput.resultingPosition at hle hge
  rw [hside] at hle hge
  refine ⟨hpos, hsize, ?_⟩
  cases s with
  | bid =>
    simp only [BookSide.side, if_true] at hle hge
    have hsum := le_of_wrapI64 hwrap (hpos.trans_le hsize) (abs_le.mpr ⟨by lia, by lia⟩) hle hge
    simp only [BookSide.sign]
    have := (abs_le.mp hsum).2
    lia
  | ask =>
    simp only [BookSide.side, reduceCtorEq, if_false] at hle hge
    have hsum := le_of_wrapI64 hwrap (hpos.trans_le hsize) (abs_le.mpr ⟨by lia, by lia⟩) hle hge
    simp only [BookSide.sign]
    have := (abs_le.mp hsum).1
    lia

/-- **A limit that every order respects is kept**, and the position is what the orders filled, if
the arithmetic is exact up to `B`. -/
theorem after_within [ExactUpTo F B] (host : Host F) (symbol : Symbol) (cfg : PipelineConfig F)
    (calls : List Call) {L : ℤ} (h0 : 0 ≤ L) (hL : L ≤ B)
    (hallow : ∀ p s q, |p| ≤ L → Allow cfg.riskLimits cfg.strategy p s q →
      s.sign * p + q ≤ L ∧ q ≤ B) :
    ∃ d, Tracks cfg.riskLimits cfg.strategy (after host symbol cfg calls)
      (after host symbol cfg calls).exec d ∧ Desk.Within L B d ∧ d.PositionBalance := by
  have hmove : ∀ p s q, |p| ≤ L → 0 < q → q ≤ B → |p + BookSide.sign s * q| ≤ L →
      move F p s q = p + s.sign * q := fun p s q hp hq hqB hpq =>
    move_exact p s q (hp.trans hL) (by rwa [abs_of_pos hq]) (hpq.trans hL)
  refine after_tracks host symbol cfg calls (fun d d' hstep hd => ?_) ⟨?_, rfl⟩
  · exact ⟨hstep.within hallow hmove hd.1, hstep.positionBalance hmove hd.1 hd.2⟩
  · refine ⟨fun s => ?_, fun s o h => by cases h⟩
    show s.sign * 0 + 0 ≤ L
    rw [mul_zero, add_zero]
    exact h0

theorem after_position_le [ExactUpTo F B] (host : Host F) (symbol : Symbol)
    (cfg : PipelineConfig F) (calls : List Call) {L : ℤ} (h0 : 0 ≤ L) (hL : L ≤ B)
    (hallow : ∀ p s q, |p| ≤ L → Allow cfg.riskLimits cfg.strategy p s q →
      s.sign * p + q ≤ L ∧ q ≤ B) :
    -L ≤ (after host symbol cfg calls).portfolio.state.position ∧
      (after host symbol cfg calls).portfolio.state.position ≤ L := by
  obtain ⟨d, ht, hd, -⟩ := after_within host symbol cfg calls h0 hL hallow
  rw [ht.counts.position]
  exact hd.position_le

/-! ## The limit of the risk engine -/

variable (limits B) in
/-- Limits up to which the `int64_t` sum of the check does not wrap to an approval and the
arithmetic of the fills is exact. -/
structure Exact : Prop where
  sum : 2 * limits.maxPosition + limits.maxOrderSize < 2 ^ 64
  position : limits.maxPosition ≤ B
  size : limits.maxOrderSize ≤ B ∨ 2 * limits.maxPosition ≤ B

theorem Allow.maxPosition_nonneg {p : ℤ} {s : BookSide} {q : ℤ} (h : Allow limits cfg p s q) :
    0 ≤ limits.maxPosition := by
  obtain ⟨-, inp, hpass, -⟩ := h
  have := hpass.position_le
  have := hpass.neg_le_position
  lia

theorem Allow.within {p : ℤ} {s : BookSide} {q : ℤ} (h : Allow limits cfg p s q)
    (hp : |p| ≤ limits.maxPosition) (hB : Exact B limits) :
    s.sign * p + q ≤ limits.maxPosition ∧ q ≤ B := by
  obtain ⟨hpos, hsize, hle⟩ := h.le hB.sum hp
  obtain ⟨h₁, h₂⟩ := abs_le.mp hp
  refine ⟨hle, ?_⟩
  rcases hB.size with hB | hB
  · exact hsize.trans hB
  · cases s <;> simp only [BookSide.sign] at hle <;> lia

/-- **The position limit holds in every reachable state**, for limits up to which the arithmetic of
the check and of the fills is exact. -/
theorem position_limit [ExactUpTo F B] (host : Host F) (symbol : Symbol) (cfg : PipelineConfig F)
    (h0 : 0 ≤ cfg.riskLimits.maxPosition) (hexact : Exact B cfg.riskLimits) (calls : List Call) :
    -cfg.riskLimits.maxPosition ≤ (after host symbol cfg calls).portfolio.state.position ∧
      (after host symbol cfg calls).portfolio.state.position ≤ cfg.riskLimits.maxPosition :=
  after_position_le host symbol cfg calls h0 hexact.position fun _ _ _ hp ha => ha.within hp hexact

theorem exact_binary64 {F : Type} [Double F] {limits : RiskLimits F}
    (hint : InI64 limits.maxOrderSize) (hmax : limits.maxPosition ≤ 2 ^ 53)
    (hsize : limits.maxOrderSize ≤ 2 ^ 53 ∨ 2 * limits.maxPosition ≤ 2 ^ 53) :
    Exact (2 ^ 53) limits := by
  have := hint.2
  exact ⟨by lia, hmax, hsize⟩

end Limits

/-! ### Beyond the exact integers -/

/-- A limit at which doubles are multiples of four. -/
def hugeConfig : PipelineConfig Float.Model where
  riskLimits :=
    { maxPosition := 2 ^ 54 + 12, maxOrderSize := 2 ^ 54 + 12, maxNotional := ofInt (10 ^ 40) }
  strategy := { quoteSize := 2 ^ 54 + 12 }
  fillAssumptions := { partialFillProbability := ofInt 0 }

/-- `ACME`. -/
def acme : Symbol := ⟨[65, 67, 77, 69], by decide⟩

/-- A two-sided book, then sellers that hit the bid: first for `2 ^ 54` shares, then four times for
three, each of which the position counts as four. -/
def hugeCalls : List Call :=
  [.process (.makeQuote 1 1 acme .buy (.fromTicks 999900) 100),
   .process (.makeQuote 2 2 acme .sell (.fromTicks 1000100) 100),
   .process (.makeTrade 3 3 acme .sell (.fromTicks 999000) (2 ^ 54)),
   .process (.makeTrade 4 4 acme .sell (.fromTicks 999000) 3),
   .process (.makeTrade 5 5 acme .sell (.fromTicks 999000) 3),
   .process (.makeTrade 6 6 acme .sell (.fromTicks 999000) 3),
   .process (.makeTrade 7 7 acme .sell (.fromTicks 999000) 3)]

theorem position_limit_default :
    -1000 ≤ (after (lowHost Float.Model) acme {} hugeCalls).portfolio.state.position ∧
      (after (lowHost Float.Model) acme {} hugeCalls).portfolio.state.position ≤ 1000 :=
  position_limit (lowHost Float.Model) acme {} (by decide)
    (exact_binary64 (by decide) (by decide) (.inl (by decide))) hugeCalls

/-- **Without the bound the limit can be passed.** -/
theorem position_limit_fails :
    ¬ ∀ (host : Host Float.Model) (symbol : Symbol) (cfg : PipelineConfig Float.Model)
      (calls : List Call), 0 ≤ cfg.riskLimits.maxPosition →
      -cfg.riskLimits.maxPosition ≤ (after host symbol cfg calls).portfolio.state.position ∧
        (after host symbol cfg calls).portfolio.state.position ≤ cfg.riskLimits.maxPosition := by
  intro h
  have hrun : hugeConfig.riskLimits.maxPosition <
      (after (lowHost Float.Model) acme hugeConfig hugeCalls).portfolio.state.position := by
    decide +kernel
  exact absurd (h (lowHost Float.Model) acme hugeConfig hugeCalls (by decide)).2 (not_le.mpr hrun)

/-! ## The limit of the strategy -/

section Taper

variable {cfg : StrategyConfig ℚ} {p : ℤ}

theorem invRatio_eq (hM : 0 < cfg.maxInventoryForSkew) (hp : |p| ≤ cfg.maxInventoryForSkew) :
    cfg.invRatio p = p / cfg.maxInventoryForSkew := by
  obtain ⟨h₁, h₂⟩ := abs_le.mp hp
  have h₁' : -(cfg.maxInventoryForSkew : ℚ) ≤ p := by exact_mod_cast h₁
  have h₂' : (p : ℚ) ≤ cfg.maxInventoryForSkew := by exact_mod_cast h₂
  have hc : cfg.clampedInventory p = p := clamp_of_mem h₁' h₂'
  rw [StrategyConfig.invRatio, if_pos hM, hc, ofInt_rat]

/-- The taper of the side that extends the inventory ratio `r`. -/
def taper (r : ℚ) : ℚ := if 0 < r then fmax 0 (1 - r) else 1

theorem bidTaper_eq : cfg.bidTaper p = taper (cfg.invRatio p) := by
  unfold StrategyConfig.bidTaper taper
  rw [ofInt_rat, ofInt_rat, Int.cast_zero, Int.cast_one]

theorem askTaper_eq : cfg.askTaper p = taper (-cfg.invRatio p) := by
  unfold StrategyConfig.askTaper taper
  rw [ofInt_rat, ofInt_rat, Int.cast_zero, Int.cast_one, sub_neg_eq_add]
  simp only [neg_pos]

theorem taper_of_pos {r : ℚ} (h : 0 < r) (h' : r ≤ 1) : taper r = 1 - r := by
  rw [taper, if_pos h, fmax]
  split_ifs with hlt
  · rfl
  · exact le_antisymm (sub_nonneg.mpr h') (not_lt.mp hlt)

/-- The truncated size `q * taper (x / M)` fits between the inventory `x` and the limit `M`. -/
theorem tapered_toInt_le {q M x : ℤ} (h0 : 0 < q) (hq : q ≤ M) (hx : x ≤ M) :
    toInt ((q : ℚ) * taper (x / M)) ≤ M - x := by
  have h0' : (0 : ℚ) ≤ q := by exact_mod_cast h0.le
  have hq' : (q : ℚ) ≤ M := by exact_mod_cast hq
  have hM : (0 : ℚ) < M := by exact_mod_cast h0.trans_le hq
  have hx' : (x : ℚ) / M ≤ 1 := (div_le_one hM).mpr (by exact_mod_cast hx)
  have hcast : ((M - x : ℤ) : ℚ) = M - x := Int.cast_sub M x
  by_cases hpos : (0 : ℚ) < x / M
  · have hsize : (q : ℚ) * (1 - x / M) ≤ M - x :=
      calc (q : ℚ) * (1 - x / M) ≤ M * (1 - x / M) :=
            mul_le_mul_of_nonneg_right hq' (sub_nonneg.mpr hx')
        _ = M - x := by field_simp
    rw [taper_of_pos hpos hx']
    exact toInt_le (mul_nonneg h0' (sub_nonneg.mpr hx')) (hcast ▸ hsize)
  · have hx0 : (x : ℚ) ≤ 0 := by
      rw [not_lt, div_nonpos_iff] at hpos
      rcases hpos with ⟨-, hM'⟩ | ⟨hx0, -⟩
      · exact absurd hM' (not_le.mpr hM)
      · exact hx0
    rw [taper, if_neg hpos, mul_one]
    refine toInt_le h0' ?_
    rw [hcast]
    linarith

/-- **The tapered sizes fit below the inventory limit.** -/
theorem taperedSize_le (h0 : 0 < cfg.quoteSize) (hq : cfg.quoteSize ≤ cfg.maxInventoryForSkew)
    (hp : |p| ≤ cfg.maxInventoryForSkew) (s : BookSide) :
    cfg.taperedSize p s ≤ cfg.maxInventoryForSkew - s.sign * p := by
  have hr := invRatio_eq (h0.trans_le hq) hp
  obtain ⟨h₁, h₂⟩ := abs_le.mp hp
  cases s with
  | bid =>
    have hle := tapered_toInt_le h0 hq h₂
    rw [← hr, ← bidTaper_eq] at hle
    simp only [BookSide.sign, one_mul]
    exact hle
  | ask =>
    have hle := tapered_toInt_le h0 hq (neg_le.mp h₁)
    rw [Int.cast_neg, neg_div, ← hr, ← askTaper_eq] at hle
    simp only [BookSide.sign, neg_one_mul]
    exact hle

end Taper

/-- **The tapered sizes keep the inventory limit** in every reachable state. -/
theorem inventory_limit (host : Host ℚ) (symbol : Symbol) (cfg : PipelineConfig ℚ)
    (h0 : 0 < cfg.strategy.quoteSize)
    (hq : cfg.strategy.quoteSize ≤ cfg.strategy.maxInventoryForSkew) (calls : List Call) :
    |(after host symbol cfg calls).portfolio.state.position| ≤
      cfg.strategy.maxInventoryForSkew := by
  have hM : 0 ≤ cfg.strategy.maxInventoryForSkew := (h0.trans_le hq).le
  refine abs_le.mpr (after_position_le (B := 2 * cfg.strategy.maxInventoryForSkew) host symbol cfg
    calls hM (by lia) fun p s q hp ha => ?_)
  have hle := taperedSize_le h0 hq hp s
  rw [ha.1] at hle
  obtain ⟨h₁, h₂⟩ := abs_le.mp hp
  cases s <;> simp only [BookSide.sign] at hle ⊢ <;> constructor <;> lia

theorem inventory_limit_default :
    |(after (lowHost ℚ) acme {} hugeCalls).portfolio.state.position| ≤ 200 :=
  inventory_limit (lowHost ℚ) acme {} (by decide) (by decide) hugeCalls

end Pipeline

end Lob
