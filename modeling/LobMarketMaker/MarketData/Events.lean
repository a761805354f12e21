import LobMarketMaker.Common.Types

/-!
# Market-data events
-/

set_option autoImplicit false

namespace Lob

/-- `enum class EventType : uint8_t`. -/
inductive EventType where
  | quote
  | trade
  | bookDelete
  | snapshot
  | heartbeat
  | unnamed (raw : UInt8) (h : 5 ≤ raw)
  deriving DecidableEq

/-- `static_cast<uint8_t>`. -/
def EventType.raw : EventType → UInt8
  | .quote => 0
  | .trade => 1
  | .bookDelete => 2
  | .snapshot => 3
  | .heartbeat => 4
  | .unnamed raw _ => raw

/-- `static_cast<EventType>`. -/
def EventType.ofRaw (raw : UInt8) : EventType :=
  if h : 5 ≤ raw then .unnamed raw h
  else if raw = 0 then .quote
  else if raw = 1 then .trade
  else if raw = 2 then .bookDelete
  else if raw = 3 then .snapshot
  else .heartbeat

@[simp] theorem EventType.ofRaw_raw (t : EventType) : ofRaw t.raw = t := by
  cases t with
  | unnamed raw h => exact dif_pos h
  | quote | trade | bookDelete | snapshot | heartbeat => rfl

/-- One market-data event. -/
@[ext] structure MarketEvent where
  timestamp : Timestamp := 0
  sequence : SequenceNumber := 0
  symbol : Symbol := ⟨[], by simp⟩
  type : EventType := .heartbeat
  price : Price := {}
  quantity : Quantity := 0
  side : Side := .buy
  deriving DecidableEq

namespace MarketEvent

variable (ts : Timestamp) (seq : SequenceNumber) (sym : Symbol)

/-- `make_quote`. -/
def makeQuote (side : Side) (px : Price) (qty : Quantity) : MarketEvent where
  timestamp := ts
  sequence := seq
  symbol := sym
  type := .quote
  price := px
  quantity := qty
  side := side

/-- `make_trade`. -/
def makeTrade (aggressorSide : Side) (px : Price) (qty : Quantity) : MarketEvent where
  timestamp := ts
  sequence := seq
  symbol := sym
  type := .trade
  price := px
  quantity := qty
  side := aggressorSide

/-- `make_delete`. -/
def makeDelete (side : Side) (px : Price) : MarketEvent where
  timestamp := ts
  sequence := seq
  symbol := sym
  type := .bookDelete
  price := px
  quantity := 0
  side := side

/-- `make_heartbeat`. -/
def makeHeartbeat : MarketEvent where
  timestamp := ts
  sequence := seq
  symbol := sym
  type := .heartbeat

end MarketEvent

end Lob
