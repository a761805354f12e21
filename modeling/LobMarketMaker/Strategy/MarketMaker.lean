import LobMarketMaker.Metrics.Microstructure

/-!
# The market-making strategy

`decide` quotes both sides around a skewed mid price; the size of the side that would extend the
inventory is tapered towards zero at the inventory limit.
-/

set_option autoImplicit false

namespace Lob

open Foundation

/-- The settings of the strategy, with the defaults of the code. -/
structure StrategyConfig (F : Type) [Double F] where
  baseHalfSpreadBps : F := ofInt 5
  quoteSize : Quantity := 10
  inventorySkewBpsPerUnit : F := ofInt 1 / ofInt 2
  maxInventoryForSkew : Quantity := 200
  volatilitySpreadMultiplier : F := ofInt 3 / ofInt 2
  maxStalenessSec : F := ofInt 5
  requoteThresholdBps : F := ofInt 1

/-- The sides to quote, at which prices and sizes. -/
structure QuoteDecision where
  quoteBid : Bool := false
  quoteAsk : Bool := false
  bidPrice : Price := {}
  askPrice : Price := {}
  bidSize : Quantity := 0
  askSize : Quantity := 0
  deriving DecidableEq

namespace QuoteDecision

variable (qd : QuoteDecision)

/-- Whether a side is quoted. -/
def quote : BookSide → Bool
  | .bid => qd.quoteBid
  | .ask => qd.quoteAsk

/-- The price decided for a side. -/
def price : BookSide → Price
  | .bid => qd.bidPrice
  | .ask => qd.askPrice

/-- The size decided for a side. -/
def size : BookSide → Quantity
  | .bid => qd.bidSize
  | .ask => qd.askSize

end QuoteDecision

namespace StrategyConfig

variable {F : Type} [Double F] (cfg : StrategyConfig F)

/-- The inventory within the limit. -/
def clampedInventory (inventory : Quantity) : F :=
  clamp (ofInt inventory) (-ofInt cfg.maxInventoryForSkew) (ofInt cfg.maxInventoryForSkew)

/-- The inventory in units of its limit; zero when there is no limit. -/
def invRatio (inventory : Quantity) : F :=
  if cfg.maxInventoryForSkew > 0 then
    cfg.clampedInventory inventory / ofInt cfg.maxInventoryForSkew
  else ofInt 0

/-- How much of the bid a long inventory leaves. -/
def bidTaper (inventory : Quantity) : F :=
  let invRatio := cfg.invRatio inventory
  if ofInt 0 < invRatio then fmax (ofInt 0) (ofInt 1 - invRatio) else ofInt 1

/-- How much of the ask a short inventory leaves. -/
def askTaper (inventory : Quantity) : F :=
  let invRatio := cfg.invRatio inventory
  if invRatio < ofInt 0 then fmax (ofInt 0) (ofInt 1 + invRatio) else ofInt 1

/-- The tapered bid, truncated. -/
def bidSize (inventory : Quantity) : Quantity :=
  toInt (ofInt cfg.quoteSize * cfg.bidTaper inventory)

/-- The tapered ask, truncated. -/
def askSize (inventory : Quantity) : Quantity :=
  toInt (ofInt cfg.quoteSize * cfg.askTaper inventory)

/-- Half the quoted spread in dollars. -/
def halfSpreadDollars (libm : Libm F) (micro : MicrostructureCalculator F) (mid : F) : F :=
  let vol := (micro.shortTermVolatility libm).getD (ofInt 0)
  let normalizedVol := vol * ofInt 10000
  let halfSpreadBps :=
    cfg.baseHalfSpreadBps * (ofInt 1 + cfg.volatilitySpreadMultiplier * normalizedVol)
  mid * halfSpreadBps / ofInt 10000

/-- The shift of both quotes against the inventory. -/
def invSkewDollars (inventory : Quantity) (mid : F) : F :=
  (cfg.inventorySkewBpsPerUnit / ofInt 10000) * cfg.clampedInventory inventory * mid

/-- `MarketMakerStrategy::decide`. -/
def decide (libm : Libm F) (book : OrderBook) (micro : MicrostructureCalculator F)
    (currentInventory : Quantity) (now : Timestamp) : QuoteDecision :=
  match (book.midPrice : Option F) with
  -- no two-sided market, cannot quote
  | none => {}
  | some mid =>
    let stalenessSec : F := ofInt (wrapI64 (now - book.lastUpdate)) / ofInt 1000000000
    -- stale market data
    if cfg.maxStalenessSec < stalenessSec then {}
    else
      let halfSpreadDollars := cfg.halfSpreadDollars libm micro mid
      let invSkewDollars := cfg.invSkewDollars currentInventory mid
      let bid := mid - halfSpreadDollars - invSkewDollars
      let ask := mid + halfSpreadDollars - invSkewDollars
      -- degenerate quotes
      if bid ≤ ofInt 0 ∨ ask ≤ bid then {}
      else
        { bidPrice := Price.fromDouble bid
          askPrice := Price.fromDouble ask
          bidSize := cfg.bidSize currentInventory
          askSize := cfg.askSize currentInventory
          quoteBid := cfg.bidSize currentInventory > 0
          quoteAsk := cfg.askSize currentInventory > 0 }

/-- The tapered size of a side. -/
def taperedSize (inventory : Quantity) : BookSide → Quantity
  | .bid => cfg.bidSize inventory
  | .ask => cfg.askSize inventory

theorem decide_size {libm : Libm F} {book : OrderBook} {micro : MicrostructureCalculator F}
    {inventory : Quantity} {now : Timestamp} {s : BookSide}
    (h : (cfg.decide libm book micro inventory now).quote s = true) :
    (cfg.decide libm book micro inventory now).size s = cfg.taperedSize inventory s ∧
      0 < cfg.taperedSize inventory s := by
  unfold decide at h ⊢
  cases hm : (book.midPrice : Option F) with
  | none => rw [hm] at h; cases s <;> cases h
  | some mid =>
    rw [hm] at h
    dsimp only at h ⊢
    split_ifs at h ⊢
    · cases s <;> cases h
    · cases s <;> cases h
    · cases s
      · exact ⟨rfl, of_decide_eq_true h⟩
      · exact ⟨rfl, of_decide_eq_true h⟩

theorem midPrice_of_quote {libm : Libm F} {book : OrderBook} {micro : MicrostructureCalculator F}
    {inventory : Quantity} {now : Timestamp} {s : BookSide}
    (h : (cfg.decide libm book micro inventory now).quote s = true) :
    ∃ mid : F, book.midPrice = some mid := by
  unfold decide at h
  cases hm : (book.midPrice : Option F) with
  | none => rw [hm] at h; cases s <;> cases h
  | some mid => exact ⟨mid, rfl⟩

end StrategyConfig

end Lob
