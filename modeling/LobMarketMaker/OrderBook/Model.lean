import LobMarketMaker.Foundation.Runs
import LobMarketMaker.Foundation.SortedTable
import LobMarketMaker.MarketData.Events

/-!
# The order book

Each side is a flat vector of levels kept sorted by price (bids descending, asks ascending) with
`std::lower_bound` and an insertion, an overwrite or an erasure at the position found.

* `upsert`, `erase`, `findPosition`, `apply`, `clear`: the mutations, as the code makes them;
* `bestBid`, `bestAsk`, `midPrice`, `spread`, `crossed`, `bidDepth`, `askDepth`: the reads.
-/

set_option autoImplicit false

namespace Lob

open Foundation

/-- An aggregated price level. -/
@[ext] structure BookLevel where
  price : Price := {}
  quantity : Quantity := 0
  deriving DecidableEq

/-- The two sides, the stamp of the last event, and the last trade. -/
structure OrderBook where
  symbol : Symbol
  /-- Descending by price. -/
  bids : List BookLevel := []
  /-- Ascending by price. -/
  asks : List BookLevel := []
  lastSequence : SequenceNumber := 0
  lastUpdate : Timestamp := 0
  lastTradePrice : Option Price := none
  lastTradeQty : Option Quantity := none
  lastTradeTime : Option Timestamp := none

namespace OrderBook

/-- A book without levels. -/
def new (symbol : Symbol) : OrderBook := { symbol }

/-- The vector of one side. -/
def levels (b : OrderBook) : BookSide → List BookLevel
  | .bid => b.bids
  | .ask => b.asks

/-- The book with the vector of one side replaced. -/
def setLevels (b : OrderBook) (s : BookSide) (l : List BookLevel) : OrderBook :=
  match s with
  | .bid => { b with bids := l }
  | .ask => { b with asks := l }

/-- `find_position`: where a price stands, or would be inserted, on its side. -/
def findPosition (levels : List BookLevel) (s : BookSide) (price : Price) : ℕ :=
  match s with
  -- descending order: first element with price ≤ target
  | .bid => lowerBound (fun lvl => lvl.price > price) levels
  -- ascending order: first element with price ≥ target
  | .ask => lowerBound (fun lvl => lvl.price < price) levels

/-- `upsert`: a quantity of zero deletes the level. -/
def upsert (b : OrderBook) (side : Side) (price : Price) (qty : Quantity) : OrderBook :=
  let levels := b.levels side.book
  let it := findPosition levels side.book price
  b.setLevels side.book <|
    if (levels[it]?).any (fun lvl => lvl.price = price) then
      if qty = 0 then levels.eraseIdx it
      else levels.modify it fun lvl => { lvl with quantity := qty }
    else if qty ≠ 0 then levels.insertIdx it ⟨price, qty⟩
    else levels

/-- `erase`: a price without a level is ignored. -/
def erase (b : OrderBook) (side : Side) (price : Price) : OrderBook :=
  let levels := b.levels side.book
  let it := findPosition levels side.book price
  if (levels[it]?).any (fun lvl => lvl.price = price) then
    b.setLevels side.book (levels.eraseIdx it)
  else b

/-- Drops every resting level. -/
def clear (b : OrderBook) : OrderBook := { b with bids := [], asks := [] }

/-- The book with the sequence number and the time of an event noted. -/
def stamp (b : OrderBook) (ev : MarketEvent) : OrderBook :=
  { b with lastSequence := ev.sequence, lastUpdate := ev.timestamp }

/-- `apply(ev)`: the event is noted, then acts by its type, whatever its symbol. -/
def apply (b₀ : OrderBook) (ev : MarketEvent) : OrderBook :=
  let b := b₀.stamp ev
  match ev.type with
  | .quote => b.upsert ev.side ev.price ev.quantity
  | .bookDelete => b.erase ev.side ev.price
  | .trade =>
    { b with
      lastTradePrice := some ev.price
      lastTradeQty := some ev.quantity
      lastTradeTime := some ev.timestamp }
  | .snapshot => b.clear
  | .heartbeat => b
  | .unnamed _ _ => b

variable (b : OrderBook)

/-- `best_bid()`. -/
def bestBid : Option Price := b.bids.head?.map BookLevel.price

/-- `best_ask()`. -/
def bestAsk : Option Price := b.asks.head?.map BookLevel.price

/-- `best_bid_quantity()`. -/
def bestBidQuantity : Option Quantity := b.bids.head?.map BookLevel.quantity

/-- `best_ask_quantity()`. -/
def bestAskQuantity : Option Quantity := b.asks.head?.map BookLevel.quantity

/-- `crossed()`: also true of a locked book. -/
def crossed : Bool :=
  match b.bestBid, b.bestAsk with
  | some bb, some ba => bb.ticks ≥ ba.ticks
  | _, _ => false

/-- The first `n` bids. -/
def bidDepth (n : ℕ) : List BookLevel := b.bids.take (min n b.bids.length)

/-- The first `n` asks. -/
def askDepth (n : ℕ) : List BookLevel := b.asks.take (min n b.asks.length)

section Doubles

variable {F : Type} [Double F]

/-- `mid_price()`, in dollars. -/
def midPrice : Option F :=
  match b.bestBid, b.bestAsk with
  | some bb, some ba => some ((bb.toDouble + ba.toDouble) / ofInt 2)
  | _, _ => none

/-- `spread()`, in dollars. -/
def spread : Option F :=
  match b.bestBid, b.bestAsk with
  | some bb, some ba => some (ba.toDouble - bb.toDouble)
  | _, _ => none

end Doubles

/-- The book of a symbol after a list of events. -/
def after (symbol : Symbol) (evs : List MarketEvent) : OrderBook := run apply (new symbol) evs

/-! ### What the mutations leave alone -/

@[simp] theorem levels_setLevels_self (s : BookSide) (l : List BookLevel) :
    (b.setLevels s l).levels s = l := by cases s <;> rfl

theorem levels_setLevels_ne {s t : BookSide} (h : t ≠ s) (l : List BookLevel) :
    (b.setLevels s l).levels t = b.levels t := by
  cases s <;> cases t <;> first | rfl | exact absurd rfl h

@[simp] theorem levels_clear (s : BookSide) : b.clear.levels s = [] := by cases s <;> rfl

@[simp] theorem symbol_setLevels (s : BookSide) (l : List BookLevel) :
    (b.setLevels s l).symbol = b.symbol := by cases s <;> rfl

theorem midPrice_eq_some_iff {F : Type} [Double F] {b : OrderBook} {mid : F} :
    b.midPrice = some mid ↔ ∃ bid ask, b.bestBid = some bid ∧ b.bestAsk = some ask ∧
      (bid.toDouble + ask.toDouble) / ofInt 2 = mid := by
  unfold midPrice
  cases b.bestBid with
  | none => simp
  | some bid =>
    cases b.bestAsk with
    | none => simp
    | some ask => simp

theorem apply_cases (ev : MarketEvent) :
    (ev.type = .quote ∧ b.apply ev = (b.stamp ev).upsert ev.side ev.price ev.quantity) ∨
    (ev.type = .bookDelete ∧ b.apply ev = (b.stamp ev).erase ev.side ev.price) ∨
    (ev.type = .snapshot ∧ b.apply ev = (b.stamp ev).clear) ∨
    (ev.type = .trade ∧ b.apply ev =
      { b.stamp ev with
        lastTradePrice := some ev.price
        lastTradeQty := some ev.quantity
        lastTradeTime := some ev.timestamp }) ∨
    (ev.type ≠ .quote ∧ ev.type ≠ .bookDelete ∧ ev.type ≠ .snapshot ∧ ev.type ≠ .trade ∧
      b.apply ev = b.stamp ev) := by
  unfold apply
  cases ev.type <;> simp

theorem erase_cases (side : Side) (price : Price) :
    b.erase side price = b ∨ ∃ l, b.erase side price = b.setLevels side.book l := by
  unfold erase
  dsimp only
  split_ifs
  · exact Or.inr ⟨_, rfl⟩
  · exact Or.inl rfl

theorem apply_symbol (ev : MarketEvent) : (b.apply ev).symbol = b.symbol := by
  rcases apply_cases b ev with ⟨-, h⟩ | ⟨-, h⟩ | ⟨-, h⟩ | ⟨-, h⟩ | ⟨-, -, -, -, h⟩ <;> rw [h]
  · exact symbol_setLevels _ _ _
  · rcases erase_cases (b.stamp ev) ev.side ev.price with h | ⟨l, h⟩ <;> rw [h]
    · rfl
    · exact symbol_setLevels _ _ _
  all_goals rfl

@[simp] theorem levels_stamp (ev : MarketEvent) (s : BookSide) :
    (b.stamp ev).levels s = b.levels s := by cases s <;> rfl

theorem apply_levels_of_not_change {ev : MarketEvent} (h₁ : ev.type ≠ .quote)
    (h₂ : ev.type ≠ .bookDelete) (h₃ : ev.type ≠ .snapshot) (s : BookSide) :
    (b.apply ev).levels s = b.levels s := by
  rcases apply_cases b ev with ⟨h, -⟩ | ⟨h, -⟩ | ⟨h, -⟩ | ⟨-, h⟩ | ⟨-, -, -, -, h⟩
  · exact absurd h h₁
  · exact absurd h h₂
  · exact absurd h h₃
  · rw [h]; cases s <;> rfl
  · rw [h]; exact levels_stamp b ev s

end OrderBook

end Lob
