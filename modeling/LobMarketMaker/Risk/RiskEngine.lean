import LobMarketMaker.Common.Types

/-!
# Pre-trade risk checks

* `check_approved_iff`: an approval is the conjunction of all the checks, whatever their order.
-/

set_option autoImplicit false

namespace Lob

open Foundation

/-- The limits, with the defaults of the code. -/
structure RiskLimits (F : Type) [Double F] where
  maxPosition : Quantity := 1000
  maxOrderSize : Quantity := 100
  maxNotional : F := ofInt 100000
  maxDailyLoss : F := ofInt 2000
  maxOpenOrders : ℕ := 20

/-- `enum class RiskDecision`. -/
inductive RiskDecision where
  | approved
  | rejectedMaxOrderSize
  | rejectedMaxPosition
  | rejectedMaxNotional
  | rejectedMaxDailyLoss
  | rejectedMaxOpenOrders
  | rejectedStaleMarketData
  deriving DecidableEq

/-- What a check is made on. -/
structure RiskCheckInput (F : Type) where
  orderQuantity : Quantity
  orderSide : Side
  referencePrice : F
  currentPosition : Quantity
  currentDailyPnl : F
  currentOpenOrders : ℕ
  marketDataStale : Bool

/-- The position if the whole order fills, in `int64_t`. -/
def RiskCheckInput.resultingPosition {F : Type} (inp : RiskCheckInput F) : Quantity :=
  let signedDelta := if inp.orderSide = .buy then inp.orderQuantity else -inp.orderQuantity
  wrapI64 (inp.currentPosition + signedDelta)

namespace RiskLimits

variable {F : Type} [Double F] (limits : RiskLimits F)

/-- `RiskEngine::check`. -/
def check (inp : RiskCheckInput F) : RiskDecision :=
  if inp.marketDataStale then .rejectedStaleMarketData
  else if inp.orderQuantity ≤ 0 ∨ inp.orderQuantity > limits.maxOrderSize then
    .rejectedMaxOrderSize
  else if inp.currentOpenOrders ≥ limits.maxOpenOrders then .rejectedMaxOpenOrders
  else if inp.currentDailyPnl ≤ -limits.maxDailyLoss then .rejectedMaxDailyLoss
  else
    let notional := ofInt inp.orderQuantity * inp.referencePrice
    if limits.maxNotional < notional then .rejectedMaxNotional
    else if inp.resultingPosition > limits.maxPosition ∨
        inp.resultingPosition < -limits.maxPosition then
      .rejectedMaxPosition
    else .approved

/-- The order passes every check. -/
structure Passes (inp : RiskCheckInput F) : Prop where
  fresh : inp.marketDataStale = false
  positive : 0 < inp.orderQuantity
  size_le : inp.orderQuantity ≤ limits.maxOrderSize
  openOrders_lt : inp.currentOpenOrders < limits.maxOpenOrders
  loss : ¬ inp.currentDailyPnl ≤ -limits.maxDailyLoss
  notional : ¬ limits.maxNotional < ofInt inp.orderQuantity * inp.referencePrice
  position_le : inp.resultingPosition ≤ limits.maxPosition
  neg_le_position : -limits.maxPosition ≤ inp.resultingPosition

theorem check_approved_iff (inp : RiskCheckInput F) :
    limits.check inp = .approved ↔ limits.Passes inp := by
  unfold check
  dsimp only
  constructor
  · intro h
    split_ifs at h with h₁ h₂ h₃ h₄ h₅ h₆
    exact
      { fresh := by simpa using h₁
        positive := by lia
        size_le := by lia
        openOrders_lt := by lia
        loss := h₄
        notional := h₅
        position_le := by lia
        neg_le_position := by lia }
  · intro h
    have h₂ := h.positive
    have h₂' := h.size_le
    have h₃ := h.openOrders_lt
    have h₆ := h.position_le
    have h₇ := h.neg_le_position
    rw [if_neg (by simp [h.fresh]), if_neg (by lia), if_neg (by lia), if_neg h.loss,
      if_neg h.notional, if_neg (by lia)]

end RiskLimits

end Lob
