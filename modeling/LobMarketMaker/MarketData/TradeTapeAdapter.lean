import LobMarketMaker.Foundation.Runs
import LobMarketMaker.MarketData.Events

/-!
# The trade-tape adapter

Turns a tape of trades into events: each trade is followed by a synthetic one-level book around its
price. Levels that move are deleted before the new ones are quoted.
-/

set_option autoImplicit false

namespace Lob

open Foundation

/-- One tick of the feed. -/
structure FinnhubTrade (F : Type) where
  symbol : List UInt8
  price : F
  volume : F
  timestampMs : ℤ

/-- `std::llround`: to the nearest integer, ties away from zero; a result that does not fit is cast
like the number itself. -/
def llround {F : Type} [Double F] (x : F) : ℤ :=
  let whole := toInt x
  let rest := x - ofInt whole
  castI64 <|
    if ofInt 1 / ofInt 2 ≤ rest ∧ rest < ofInt 1 then whole + 1
    else if rest ≤ -(ofInt 1 / ofInt 2) ∧ -ofInt 1 < rest then whole - 1
    else whole

/-- The members of the class: the tick rule's memory and the level quoted on each side. -/
structure TradeTapeAdapter (F : Type) where
  halfSpread : F
  seq : SequenceNumber := 1
  lastPrice : Option F := none
  lastSide : Side := .buy
  bid : Option Price := none
  ask : Option Price := none

namespace TradeTapeAdapter

variable {F : Type} [Double F]

/-- The constructor. -/
def new (syntheticSpread : F) : TradeTapeAdapter F := { halfSpread := syntheticSpread / ofInt 2 }

/-- The quantity of the events a trade causes; zero would delete the levels. -/
def quantity (trade : FinnhubTrade F) : Quantity := max 1 (llround trade.volume)

/-- Its timestamp, in `int64_t` nanoseconds. -/
def nanoseconds (trade : FinnhubTrade F) : Timestamp := wrapI64 (trade.timestampMs * 1000000)

/-- The tick rule. -/
def inferSide (a : TradeTapeAdapter F) (trade : FinnhubTrade F) : Side :=
  match a.lastPrice with
  | none => a.lastSide
  | some last =>
    if last < trade.price then .buy else if trade.price < last then .sell else a.lastSide

/-- The synthetic bid of a trade. -/
def newBid (a : TradeTapeAdapter F) (trade : FinnhubTrade F) : Price :=
  Price.fromDouble (trade.price - a.halfSpread)

/-- The synthetic ask of a trade. -/
def newAsk (a : TradeTapeAdapter F) (trade : FinnhubTrade F) : Price :=
  Price.fromDouble (trade.price + a.halfSpread)

/-- `out.push_back(make(seq_++))`. -/
def push (s : List MarketEvent × TradeTapeAdapter F) (make : SequenceNumber → MarketEvent) :
    List MarketEvent × TradeTapeAdapter F :=
  (s.1 ++ [make s.2.seq], { s.2 with seq := s.2.seq + 1 })

/-- The previous level of a side is deleted if it is not the new one. -/
def pushDelete (ts : Timestamp) (symbol : Symbol) (side : Side) (old : Option Price) (new : Price)
    (s : List MarketEvent × TradeTapeAdapter F) : List MarketEvent × TradeTapeAdapter F :=
  match old with
  | none => s
  | some px => if px ≠ new then push s fun seq => .makeDelete ts seq symbol side px else s

/-- `on_trade(trade, out)`. -/
def onTrade (s : List MarketEvent × TradeTapeAdapter F) (trade : FinnhubTrade F) :
    List MarketEvent × TradeTapeAdapter F :=
  let (out, a) := s
  let symbol := Symbol.ofView trade.symbol
  let ts := nanoseconds trade
  let qty := quantity trade
  let side := a.inferSide trade
  let newBid := a.newBid trade
  let newAsk := a.newAsk trade
  let s := (out, { a with lastPrice := some trade.price, lastSide := side })
  let s := push s fun seq => .makeTrade ts seq symbol side (Price.fromDouble trade.price) qty
  let s := pushDelete ts symbol .buy a.bid newBid s
  let s := pushDelete ts symbol .sell a.ask newAsk s
  let s := push s fun seq => .makeQuote ts seq symbol .buy newBid qty
  let (out, a) := push s fun seq => .makeQuote ts seq symbol .sell newAsk qty
  (out, { a with bid := some newBid, ask := some newAsk })

/-- The events of a tape and the adapter after it. -/
def onTrades (a : TradeTapeAdapter F) (trades : List (FinnhubTrade F)) :
    List MarketEvent × TradeTapeAdapter F := run onTrade ([], a) trades

end TradeTapeAdapter

end Lob
