import LobMarketMaker.Common.Types

/-!
# The portfolio

Weighted-average-cost accounting of one position from a stream of fills and marks. The position
is moved in `double` arithmetic and cast back (`movePosition`).

* `onFill_position`, `onFill_volume`, `onFill_turnover`: what a fill does on every path;
* `PositionState.Consistent`, `MarkedAt`: what a mark establishes, and a fill breaks.
-/

set_option autoImplicit false

namespace Lob

open Foundation

/-- The position and its accounts. -/
structure PositionState (F : Type) [Double F] where
  position : Quantity := 0
  avgEntryPrice : F := ofInt 0
  realizedPnl : F := ofInt 0
  unrealizedPnl : F := ofInt 0
  totalPnl : F := ofInt 0
  totalVolumeTraded : Quantity := 0
  turnover : F := ofInt 0

/-- The current state and the states that fills have left. -/
structure Portfolio (F : Type) [Double F] where
  state : PositionState F := {}
  history : List (PositionState F) := []

namespace Portfolio

variable {F : Type} [Double F]

/-- `signed_fill`. -/
def signedFill (side : Side) (fillQty : Quantity) : F :=
  if side = .buy then ofInt fillQty else -ofInt fillQty

/-- A fill that opens or extends the position. -/
def extend (s : PositionState F) (signedFill price : F) : PositionState F :=
  let oldNotional := ofInt s.position * s.avgEntryPrice
  let newPosition := ofInt s.position + signedFill
  let newNotional := oldNotional + signedFill * price
  { s with
    avgEntryPrice := if newPosition != ofInt 0 then newNotional / newPosition else ofInt 0
    position := toInt newPosition }

/-- A fill that reduces or flips the position. -/
def reduce (s : PositionState F) (signedFill price : F) : PositionState F :=
  let closingQty := fmin (Double.abs signedFill) (Double.abs (ofInt s.position))
  let positionSign : ℤ := if s.position > 0 then 1 else -1
  let realizedPnl := s.realizedPnl + closingQty * (price - s.avgEntryPrice) * ofInt positionSign
  let newPosition := ofInt s.position + signedFill
  let position := toInt newPosition
  { s with
    realizedPnl
    position
    avgEntryPrice :=
      if decide (position > 0) ≠ decide (positionSign > 0) ∧ position ≠ 0 then price
      else if position = 0 then ofInt 0
      else s.avgEntryPrice }

/-- `on_fill`: volume and turnover grow, then the position extends, reduces or flips. -/
def onFill (p : Portfolio F) (side : Side) (fillPrice : Price) (fillQty : Quantity) :
    Portfolio F :=
  let price := fillPrice.toDouble
  let qty : F := ofInt fillQty
  let signedFill := signedFill side fillQty
  let s : PositionState F :=
    { p.state with
      totalVolumeTraded := wrapI64 (p.state.totalVolumeTraded + fillQty)
      turnover := p.state.turnover + qty * price }
  let s :=
    if s.position = 0 ∨ decide (s.position > 0) = decide (ofInt 0 < signedFill) then
      extend s signedFill price
    else reduce s signedFill price
  { state := s, history := p.history ++ [s] }

/-- `mark_to_market`: the unrealized P&L at the mark, and the total. -/
def markToMarket (p : Portfolio F) (markPrice : F) : Portfolio F :=
  let unrealizedPnl := ofInt p.state.position * (markPrice - p.state.avgEntryPrice)
  { p with
    state := { p.state with unrealizedPnl, totalPnl := p.state.realizedPnl + unrealizedPnl } }

/-! ### What a fill does -/

variable (F) in
/-- The position after a fill, as `double` arithmetic moves it. -/
def movePosition (position : Quantity) (side : Side) (fillQty : Quantity) : Quantity :=
  toInt (ofInt position + signedFill side fillQty : F)

variable (p : Portfolio F) (side : Side) (price : Price) (qty : Quantity)

theorem onFill_position : (p.onFill side price qty).state.position =
    movePosition F p.state.position side qty := by
  unfold onFill
  dsimp only
  split_ifs <;> rfl

theorem onFill_volume : (p.onFill side price qty).state.totalVolumeTraded =
    wrapI64 (p.state.totalVolumeTraded + qty) := by
  unfold onFill
  dsimp only
  split_ifs <;> rfl

theorem onFill_turnover : (p.onFill side price qty).state.turnover =
    p.state.turnover + ofInt qty * price.toDouble := by
  unfold onFill
  dsimp only
  split_ifs <;> rfl

end Portfolio

/-! ### The books of a position -/

/-- The total is what was realized and what is not yet. -/
def PositionState.Consistent {F : Type} [Double F] (s : PositionState F) : Prop :=
  s.totalPnl = s.realizedPnl + s.unrealizedPnl

/-- The unrealized part is marked at `mid`. -/
def PositionState.MarkedAt {F : Type} [Double F] (s : PositionState F) (mid : F) : Prop :=
  s.unrealizedPnl = ofInt s.position * (mid - s.avgEntryPrice)

theorem Portfolio.markToMarket_consistent {F : Type} [Double F] (p : Portfolio F) (mid : F) :
    (p.markToMarket mid).state.Consistent := rfl

theorem Portfolio.markToMarket_markedAt {F : Type} [Double F] (p : Portfolio F) (mid : F) :
    (p.markToMarket mid).state.MarkedAt mid := rfl

end Lob
