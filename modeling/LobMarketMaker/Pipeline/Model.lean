import LobMarketMaker.Execution.PaperExecutionEngine
import LobMarketMaker.Metrics.LatencyStats
import LobMarketMaker.Portfolio.Portfolio
import LobMarketMaker.Risk.RiskEngine
import LobMarketMaker.Strategy.MarketMaker

/-!
# The pipeline

Order book, microstructure, strategy, risk, paper execution and portfolio behind two entry points,
`process` and `onClock`. The stages of `process` are functions of their own: `intake` (the trackers
and a resync), `observe` (book and microstructure), `execute` (fills and the mark) and `settle`
(quoting).

* `track`, `resync`, `requote`, `cancelSide`, `submit`: the operations of the class;
* `Call`, `after`: the pipeline after any interleaving of the two entry points.
-/

set_option autoImplicit false

namespace Lob

open Foundation

/-- The settings of a pipeline, with the defaults of the code. -/
structure PipelineConfig (F : Type) [Double F] where
  riskLimits : RiskLimits F := {}
  strategy : StrategyConfig F := {}
  fillAssumptions : FillAssumptions F := {}
  profileStages : Bool := false

/-- The counters and the latencies. -/
structure PipelineStats (F : Type) [Double F] where
  eventsProcessed : ℕ := 0
  outOfOrderDropped : ℕ := 0
  sequenceGaps : ℕ := 0
  staleResets : ℕ := 0
  clockStaleEvents : ℕ := 0
  crossedBookEvents : ℕ := 0
  quotesSubmitted : ℕ := 0
  quotesCanceled : ℕ := 0
  fills : ℕ := 0
  partialFills : ℕ := 0
  riskRejects : ℕ := 0
  decisionLatency : LatencyStats F := {}
  bookUpdateLatency : LatencyStats F := {}
  executionLatency : LatencyStats F := {}

/-- The working order of one side. -/
@[ext] structure RestingQuote where
  id : OrderId
  price : Price
  size : Quantity
  deriving DecidableEq

/-- One call of `RiskEngine::check`, with the portfolio and the mid price it was made under. -/
structure RiskRecord (F : Type) [Double F] where
  input : RiskCheckInput F
  decision : RiskDecision
  state : PositionState F
  mid : Option F

/-- The members of the class, and two that it does not have: the number of clock readings taken and
the record of the risk checks made. -/
structure Pipeline (F : Type) [Double F] where
  book : OrderBook
  micro : MicrostructureCalculator F := {}
  risk : RiskLimits F
  strategy : StrategyConfig F
  exec : PaperExecutionEngine F
  portfolio : Portfolio F := {}
  staleThreshold : Timestamp
  requoteThresholdBps : F
  profileStages : Bool
  marketDataStale : Bool := false
  nextOrderId : OrderId := 1
  lastSequence : Option SequenceNumber := none
  lastEventTs : Option Timestamp := none
  restingBid : Option RestingQuote := none
  restingAsk : Option RestingQuote := none
  stats : PipelineStats F := {}
  clockReads : ℕ := 0
  checks : List (RiskRecord F) := []

namespace Pipeline

variable {F : Type} [Double F]

/-- The constructor. -/
def new (symbol : Symbol) (cfg : PipelineConfig F) : Pipeline F where
  book := OrderBook.new symbol
  risk := cfg.riskLimits
  strategy := cfg.strategy
  exec := { assumptions := cfg.fillAssumptions }
  staleThreshold := toInt (cfg.strategy.maxStalenessSec * ofInt 1000000000)
  requoteThresholdBps := cfg.strategy.requoteThresholdBps
  profileStages := cfg.profileStages

variable (host : Host F) (p : Pipeline F)

/-- The slot of a side. -/
def resting : BookSide → Option RestingQuote
  | .bid => p.restingBid
  | .ask => p.restingAsk

/-- The pipeline with the slot of one side replaced. -/
def setResting (s : BookSide) (q : Option RestingQuote) : Pipeline F :=
  match s with
  | .bid => { p with restingBid := q }
  | .ask => { p with restingAsk := q }

/-! ## Clock readings -/

/-- `steady_clock::now()`. -/
def readClock : ℤ × Pipeline F :=
  (host.steady p.clockReads, { p with clockReads := p.clockReads + 1 })

/-- A reading taken only when the stages are profiled. -/
def stageClock : ℤ × Pipeline F := if p.profileStages then p.readClock host else (0, p)

/-! ## Orders -/

/-- `apply_report`: a fill reaches the portfolio, a filled order leaves its slot. -/
def applyReport (p : Pipeline F) (report : ExecutionReport) : Pipeline F :=
  let p :=
    if report.fillQuantity > 0 then
      { p with
        portfolio := p.portfolio.onFill report.side report.fillPrice report.fillQuantity
        stats :=
          { p.stats with
            fills := p.stats.fills + 1
            partialFills :=
              if report.status = .partiallyFilled then p.stats.partialFills + 1
              else p.stats.partialFills } }
    else p
  if report.status = .filled then
    let p := if p.restingBid.any (·.id = report.orderId) then { p with restingBid := none } else p
    if p.restingAsk.any (·.id = report.orderId) then { p with restingAsk := none } else p
  else p

/-- `cancel_side`: the order of a slot, if there is one, is withdrawn. -/
def cancelSide (p : Pipeline F) (s : BookSide) (now : Timestamp) : Pipeline F :=
  match p.resting s with
  | none => p
  | some quote =>
    { p with
      exec := (p.exec.cancel quote.id now).2
      stats := { p.stats with quotesCanceled := p.stats.quotesCanceled + 1 } }.setResting s none

/-- `cancel_resting_quotes`. -/
def cancelRestingQuotes (now : Timestamp) : Pipeline F :=
  (p.cancelSide .bid now).cancelSide .ask now

/-- `resync`: quotes withdrawn, levels dropped, price history forgotten. -/
def resync (now : Timestamp) : Pipeline F :=
  let p := p.cancelRestingQuotes now
  { p with book := p.book.clear, micro := p.micro.resetPriceHistory }

/-- `needs_replace`: no quote, another size, or a price that moved beyond the threshold. -/
def needsReplace (resting : Option RestingQuote) (target : Price) (size : Quantity)
    (thresholdTicks : ℤ) : Bool :=
  match resting with
  | none => true
  | some quote =>
    if quote.size ≠ size then true
    else
      let move := quote.price.ticks - target.ticks
      (if move < 0 then -move else move) > thresholdTicks

/-- The record of the check that `submit` makes. -/
def riskRecord (s : BookSide) (size : Quantity) (referencePrice : F) : RiskRecord F :=
  let input : RiskCheckInput F :=
    { orderQuantity := size
      orderSide := s.side
      referencePrice
      currentPosition := p.portfolio.state.position
      currentDailyPnl := p.portfolio.state.totalPnl
      currentOpenOrders := p.exec.openOrderCount
      marketDataStale := p.marketDataStale }
  { input
    decision := p.risk.check input
    state := p.portfolio.state
    mid := p.book.midPrice }

/-- A call with side `s.side` and the slot of that side. -/
def submit (s : BookSide) (price : Price) (size : Quantity) (referencePrice : F)
    (now : Timestamp) : Pipeline F :=
  let record := p.riskRecord s size referencePrice
  let p := { p with checks := p.checks ++ [record] }
  if record.decision ≠ .approved then
    { p with stats := { p.stats with riskRejects := p.stats.riskRejects + 1 } }
  else
    let id := p.nextOrderId
    { p with
      nextOrderId := id + 1
      exec := (p.exec.submitLimit host id p.book.symbol s.side price size now).2
      stats := { p.stats with quotesSubmitted := p.stats.quotesSubmitted + 1 } }.setResting s
        (some ⟨id, price, size⟩)

/-- The move of the target, in ticks, up to which a resting quote is kept. -/
def thresholdTicks (referencePrice : F) : ℤ :=
  toInt (referencePrice * p.requoteThresholdBps / ofInt 10000 * ofInt Price.kScale)

/-- `if (!qd.quote) cancel_side(…)`. -/
def withdraw (p : Pipeline F) (s : BookSide) (qd : QuoteDecision) (now : Timestamp) :
    Pipeline F :=
  if ¬ qd.quote s then p.cancelSide s now else p

/-- The replacement of one side's quote. -/
def replace (p : Pipeline F) (s : BookSide) (qd : QuoteDecision) (referencePrice : F)
    (thresholdTicks : ℤ) (now : Timestamp) : Pipeline F :=
  if qd.quote s && needsReplace (p.resting s) (qd.price s) (qd.size s) thresholdTicks then
    (p.cancelSide s now).submit host s (qd.price s) (qd.size s) referencePrice now
  else p

/-- The quoting decision in the current state. -/
def decision (now : Timestamp) : QuoteDecision :=
  p.strategy.decide host.toLibm p.book p.micro p.portfolio.state.position now

/-- `requote` between its clock readings. -/
def requoteSides (now : Timestamp) : Pipeline F :=
  let qd := p.decision host now
  let referencePrice : F := p.book.midPrice.getD (ofInt 0)
  let thresholdTicks := p.thresholdTicks referencePrice
  let p := (p.withdraw .bid qd now).withdraw .ask qd now
  let p := p.replace host .bid qd referencePrice thresholdTicks now
  p.replace host .ask qd referencePrice thresholdTicks now

/-- `requote`: the decision and the orders that follow from it, timed. -/
def requote (now : Timestamp) : Pipeline F :=
  let (t0, p) := p.readClock host
  let p := p.requoteSides host now
  let (t1, p) := p.readClock host
  { p with
    stats := { p.stats with decisionLatency := p.stats.decisionLatency.addNs (wrapI64 (t1 - t0)) } }

/-! ## Events -/

/-- `last_sequence_ && ev.sequence <= *last_sequence_`. -/
def outOfOrder (ev : MarketEvent) : Bool := p.lastSequence.any (ev.sequence ≤ ·)

/-- The event does not carry the next sequence number. -/
def gap (ev : MarketEvent) : Bool := p.lastSequence.any (ev.sequence ≠ · + 1)

/-- The difference of the two times is one of `int64_t` nanoseconds. -/
def stale (ev : MarketEvent) : Bool :=
  p.lastEventTs.any fun ts => wrapI64 (ev.timestamp - ts) > p.staleThreshold

/-- The trackers and counters of the feed. -/
def track (ev : MarketEvent) : Pipeline F :=
  { p with
    lastSequence := some ev.sequence
    lastEventTs := some ev.timestamp
    marketDataStale := false
    stats :=
      { p.stats with
        sequenceGaps := if p.gap ev then p.stats.sequenceGaps + 1 else p.stats.sequenceGaps
        staleResets := if p.stale ev then p.stats.staleResets + 1 else p.stats.staleResets } }

/-- The trackers, and the resync that a gap or staleness triggers. -/
def intake (ev : MarketEvent) : Pipeline F :=
  if p.gap ev || p.stale ev then (p.track ev).resync ev.timestamp else p.track ev

/-- The book and the microstructure see the event. -/
def observe (p : Pipeline F) (ev : MarketEvent) : Pipeline F :=
  let book := p.book.apply ev
  let micro := p.micro.onBookUpdate host.toLibm book
  { p with
    book
    micro := if ev.type = .trade then micro.onTrade ev.quantity ev.timestamp else micro }

/-- The fills the event causes. -/
def takeFills (p : Pipeline F) (ev : MarketEvent) : Pipeline F :=
  let (reports, exec) := p.exec.onMarketEvent host ev
  reports.foldl applyReport { p with exec }

/-- The mark at the mid price, when there is one. -/
def mark : Pipeline F :=
  match (p.book.midPrice : Option F) with
  | some mid => { p with portfolio := p.portfolio.markToMarket mid }
  | none => p

/-- The fills of an event, then the mark. -/
def execute (p : Pipeline F) (ev : MarketEvent) : Pipeline F := (p.takeFills host ev).mark

/-- The latencies of the two profiled stages. -/
def recordStages (p : Pipeline F) (t0 t1 : ℤ) : Pipeline F :=
  if p.profileStages then
    let (t2, p) := p.readClock host
    { p with
      stats :=
        { p.stats with
          bookUpdateLatency := p.stats.bookUpdateLatency.addNs (wrapI64 (t1 - t0))
          executionLatency := p.stats.executionLatency.addNs (wrapI64 (t2 - t1)) } }
  else p

/-- Events that may change the book. -/
def bookChanged (ev : MarketEvent) : Bool :=
  ev.type = .quote || ev.type = .bookDelete || ev.type = .snapshot

/-- A crossed book withdraws the quotes, a changed one renews them. -/
def settle (p : Pipeline F) (ev : MarketEvent) : Pipeline F :=
  if p.book.crossed then
    { p with
      stats :=
        { p.stats with
          crossedBookEvents := p.stats.crossedBookEvents + 1 } }.cancelRestingQuotes ev.timestamp
  else if bookChanged ev then p.requote host ev.timestamp
  else p

/-- `process(ev)`. An event out of order is only counted. -/
def process (ev : MarketEvent) : Pipeline F :=
  let p := { p with stats := { p.stats with eventsProcessed := p.stats.eventsProcessed + 1 } }
  if p.outOfOrder ev then
    { p with stats := { p.stats with outOfOrderDropped := p.stats.outOfOrderDropped + 1 } }
  else
    let (t0, p) := (p.intake ev).stageClock host
    let (t1, p) := (p.observe host ev).stageClock host
    ((p.execute host ev).recordStages host t0 t1).settle host ev

/-- `on_clock(now)`: past the threshold the feed is marked stale and the quotes are withdrawn, once.
-/
def onClock (now : Timestamp) : Pipeline F :=
  match p.lastEventTs with
  | none => p
  | some ts =>
    if p.marketDataStale then p
    else if wrapI64 (now - ts) > p.staleThreshold then
      { p with
        marketDataStale := true
        stats :=
          { p.stats with
            clockStaleEvents := p.stats.clockStaleEvents + 1 } }.cancelRestingQuotes now
    else p

end Pipeline

/-- A call of one of the two entry points. -/
inductive Call where
  | process (ev : MarketEvent)
  | onClock (now : Timestamp)

namespace Pipeline

variable {F : Type} [Double F] (host : Host F)

/-- A call of the entry point it names. -/
def call (p : Pipeline F) : Call → Pipeline F
  | .process ev => p.process host ev
  | .onClock now => p.onClock now

/-- The pipeline of a symbol after a list of calls. -/
def after (symbol : Symbol) (cfg : PipelineConfig F) (calls : List Call) : Pipeline F :=
  run (call host) (new symbol cfg) calls

end Pipeline

end Lob
