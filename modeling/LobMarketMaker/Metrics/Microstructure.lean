import LobMarketMaker.OrderBook.Model

/-!
# Market microstructure

Rolling windows over the mid price and the trades, and the metrics read off the current book.
-/

set_option autoImplicit false

namespace Lob

open Foundation

/-- A trade in the rolling window. -/
structure TradeSample where
  quantity : Quantity
  timestamp : Timestamp
  deriving DecidableEq

/-- The members of the class: the last mid price and the two windows. -/
structure MicrostructureCalculator (F : Type) where
  volatilityWindow : ℕ := 50
  tradeWindow : ℕ := 200
  lastMid : Option F := none
  returns : List F := []
  trades : List TradeSample := []

namespace MicrostructureCalculator

variable {F : Type} [Double F] (libm : Libm F) (m : MicrostructureCalculator F)

/-- `on_book_update`: the log return of the mid price enters the window. -/
def onBookUpdate (book : OrderBook) : MicrostructureCalculator F :=
  match (book.midPrice : Option F) with
  | none => m
  | some mid =>
    match m.lastMid with
    | none => { m with lastMid := some mid }
    | some last =>
      let returns := m.returns ++ [libm.log (mid / last)]
      { m with
        lastMid := some mid
        returns := if returns.length > m.volatilityWindow then returns.tail else returns }

/-- Forgets the price history, after a feed resync. -/
def resetPriceHistory : MicrostructureCalculator F := { m with lastMid := none, returns := [] }

/-- The loop that pops samples from the front while there are more than `window`. -/
def onTrade (qty : Quantity) (ts : Timestamp) : MicrostructureCalculator F :=
  let trades := m.trades ++ [⟨qty, ts⟩]
  { m with trades := trades.drop (trades.length - m.tradeWindow) }

/-- Sample standard deviation of the log returns. -/
def shortTermVolatility : Option F :=
  if m.returns.length < 2 then none
  else
    let n := m.returns.length
    let mean := m.returns.foldl (· + ·) (ofInt 0) / ofInt n
    let var := m.returns.foldl (fun v r => v + (r - mean) * (r - mean)) (ofInt 0) / ofInt (n - 1)
    some (libm.sqrt var)

/-! ### Metrics of a book -/

/-- The liquidity-weighted price. -/
def microprice (book : OrderBook) : Option F :=
  match book.bestBid, book.bestAsk, book.bestBidQuantity, book.bestAskQuantity with
  | some bb, some ba, some bq, some aq =>
    let denom : F := ofInt (wrapI64 (bq + aq))
    if denom == ofInt 0 then none
    else some ((bb.toDouble * ofInt aq + ba.toDouble * ofInt bq) / denom)
  | _, _, _, _ => none

/-- The excess of the best bid's size over the best ask's, in their sum. -/
def topOfBookImbalance (book : OrderBook) : Option F :=
  match book.bestBidQuantity, book.bestAskQuantity with
  | some bq, some aq =>
    let denom : F := ofInt (wrapI64 (bq + aq))
    if denom == ofInt 0 then none else some (ofInt (wrapI64 (bq - aq)) / denom)
  | _, _ => none

/-- The imbalance summed over the top `n` levels of each side. -/
def depthImbalance (book : OrderBook) (n : ℕ) : Option F :=
  let bids := book.bidDepth n
  let asks := book.askDepth n
  if bids.isEmpty || asks.isEmpty then none
  else
    let bidVol := bids.foldl (fun v l => wrapI64 (v + l.quantity)) 0
    let askVol := asks.foldl (fun v l => wrapI64 (v + l.quantity)) 0
    let denom : F := ofInt (wrapI64 (bidVol + askVol))
    if denom == ofInt 0 then none else some (ofInt (wrapI64 (bidVol - askVol)) / denom)

end MicrostructureCalculator

end Lob
