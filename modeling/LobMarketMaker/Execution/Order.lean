import LobMarketMaker.Common.Types

/-!
# Orders and execution reports
-/

set_option autoImplicit false

namespace Lob

/-- An order and how far it is filled. -/
structure Order where
  id : OrderId := 0
  symbol : Symbol := ⟨[], by simp⟩
  side : Side := .buy
  type : OrderType := .limit
  price : Price := {}
  quantity : Quantity := 0
  filledQuantity : Quantity := 0
  status : OrderStatus := .new
  createdTime : Timestamp := 0
  lastUpdateTime : Timestamp := 0
  deriving DecidableEq

/-- `remaining_quantity()`. -/
def Order.remainingQuantity (o : Order) : Quantity := o.quantity - o.filledQuantity

/-- What the engine says of one submission, fill or cancellation. -/
structure ExecutionReport where
  orderId : OrderId := 0
  symbol : Symbol := ⟨[], by simp⟩
  side : Side := .buy
  status : OrderStatus := .new
  fillPrice : Price := {}
  /-- Filled by this report alone. -/
  fillQuantity : Quantity := 0
  remainingQuantity : Quantity := 0
  timestamp : Timestamp := 0
  submitToAckLatency : Timestamp := 0
  reason : String := ""
  deriving DecidableEq

end Lob
