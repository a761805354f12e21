import LobMarketMaker.Pipeline.Redelivery

/-!
# Epochs

Events whose times and sequence numbers are all moved by the same amount.

* `Offset`, `shift`: an offset, and what it does to an event, an order, a book and a pipeline;
* `Host.Keyed`: the hash map places its entries by their keys;
* `OrderBook.shift_apply`, `PaperExecutionEngine.shift_onMarketEvent`, `StrategyConfig.decide_shift`:
  the components; `Pipeline.shift_process`, `Pipeline.shift_call`: one call;
* **`epoch_free`**: a run depends on differences of times and of sequence numbers only.
-/

set_option autoImplicit false

namespace Lob

open Foundation

/-- How far times and sequence numbers are moved. -/
structure Offset where
  time : Timestamp
  sequence : ℕ

variable {F : Type} [Double F] (o : Offset)

/-- The event at its time and number moved. -/
def MarketEvent.shift (ev : MarketEvent) : MarketEvent :=
  { ev with timestamp := ev.timestamp + o.time, sequence := ev.sequence + o.sequence }

/-- The call with its event or its time moved. -/
def Call.shift : Call → Call
  | .process ev => .process (ev.shift o)
  | .onClock now => .onClock (now + o.time)

/-! ## The book and the windows -/

namespace OrderBook

/-- The book with its stamps moved. -/
def shift (b : OrderBook) : OrderBook :=
  { b with
    lastSequence := b.lastSequence + o.sequence
    lastUpdate := b.lastUpdate + o.time
    lastTradeTime := b.lastTradeTime.map (· + o.time) }

variable (b : OrderBook)

theorem shift_levels (s : BookSide) : (b.shift o).levels s = b.levels s := by cases s <;> rfl

theorem shift_setLevels (s : BookSide) (l : List BookLevel) :
    (b.setLevels s l).shift o = (b.shift o).setLevels s l := by cases s <;> rfl

theorem shift_upsert (side : Side) (price : Price) (qty : Quantity) :
    (b.upsert side price qty).shift o = (b.shift o).upsert side price qty := by
  unfold upsert
  rw [shift_levels, shift_setLevels]

theorem shift_erase (side : Side) (price : Price) :
    (b.erase side price).shift o = (b.shift o).erase side price := by
  unfold erase
  rw [shift_levels]
  dsimp only
  rw [← shift_setLevels]
  split_ifs <;> rfl

/-- **The book** of the events moved. -/
theorem shift_apply (ev : MarketEvent) :
    (b.apply ev).shift o = (b.shift o).apply (ev.shift o) := by
  have hstamp : (b.shift o).stamp (ev.shift o) = (b.stamp ev).shift o := rfl
  have htype : (ev.shift o).type = ev.type := rfl
  unfold apply
  rw [hstamp, htype]
  cases ev.type with
  | quote => exact shift_upsert o _ _ _ _
  | bookDelete => exact shift_erase o _ _ _
  | trade | snapshot | heartbeat | unnamed => rfl

end OrderBook

/-- The sample with its time moved. -/
def TradeSample.shift (t : TradeSample) : TradeSample := { t with timestamp := t.timestamp + o.time }

namespace MicrostructureCalculator

/-- The window of trades with its times moved. -/
def shift (m : MicrostructureCalculator F) : MicrostructureCalculator F :=
  { m with trades := m.trades.map (TradeSample.shift o) }

variable (libm : Libm F) (m : MicrostructureCalculator F)

theorem shift_onBookUpdate (b : OrderBook) :
    (m.onBookUpdate libm b).shift o = (m.shift o).onBookUpdate libm (b.shift o) := by
  have hmid : ((b.shift o).midPrice : Option F) = b.midPrice := rfl
  have hlast : (m.shift o).lastMid = m.lastMid := rfl
  unfold onBookUpdate
  rw [hmid, hlast]
  cases (b.midPrice : Option F) with
  | none => rfl
  | some mid => cases m.lastMid <;> rfl

omit [Double F] in
theorem shift_onTrade (qty : Quantity) (ts : Timestamp) :
    (m.onTrade qty ts).shift o = (m.shift o).onTrade qty (ts + o.time) := by
  unfold onTrade shift
  dsimp only
  rw [List.map_drop, List.map_append, List.length_append, List.length_append, List.length_map]
  rfl

end MicrostructureCalculator

/-- **The decision** at the time moved. -/
theorem StrategyConfig.decide_shift (cfg : StrategyConfig F) (libm : Libm F) (b : OrderBook)
    (m : MicrostructureCalculator F) (inventory : Quantity) (now : Timestamp) :
    cfg.decide libm (b.shift o) (m.shift o) inventory (now + o.time) =
      cfg.decide libm b m inventory now := by
  have hage : now + o.time - (b.shift o).lastUpdate = now - b.lastUpdate :=
    add_sub_add_right_eq_sub _ _ _
  unfold decide
  rw [hage]
  rfl

/-! ## The execution engine -/

/-- The order with its times moved. -/
def Order.shift (x : Order) : Order :=
  { x with createdTime := x.createdTime + o.time, lastUpdateTime := x.lastUpdateTime + o.time }

/-- The report with its time moved. -/
def ExecutionReport.shift (r : ExecutionReport) : ExecutionReport :=
  { r with timestamp := r.timestamp + o.time }

/-- The hash map places its entries by their keys. -/
def Host.Keyed (host : Host F) : Prop :=
  ∀ n (f : Order → Order) l, host.layout n (l.map fun x => (x.1, f x.2)) =
    (host.layout n l).map fun x => (x.1, f x.2)

namespace PaperExecutionEngine

/-- An entry of the map of open orders. -/
def shiftEntry (x : OrderId × Order) : OrderId × Order := (x.1, x.2.shift o)

/-- The engine with the times of its orders moved. -/
def shift (e : PaperExecutionEngine F) : PaperExecutionEngine F :=
  { e with
    openOrders := e.openOrders.map (shiftEntry o)
    closed := e.closed.map (Order.shift o) }

variable (host : Host F) (e : PaperExecutionEngine F)

theorem shift_openOrderCount : (e.shift o).openOrderCount = e.openOrderCount := List.length_map _

theorem shift_assign (hkeyed : host.Keyed) (id : OrderId) (order : Order) :
    (e.assign host id order).shift o = (e.shift o).assign host id (order.shift o) := by
  have hany : (e.shift o).openOrders.any (·.1 = id) = e.openOrders.any (·.1 = id) := List.any_map
  unfold assign
  rw [hany]
  split_ifs
  · have hmap : (e.openOrders.map fun x => if x.1 = id then (id, order) else x).map (shiftEntry o) =
        (e.openOrders.map (shiftEntry o)).map
          fun x => if x.1 = id then (id, order.shift o) else x := by
      rw [List.map_map, List.map_map]
      refine List.map_congr_left fun x _ => ?_
      show shiftEntry o (if x.1 = id then (id, order) else x) = if x.1 = id then _ else _
      split_ifs <;> rfl
    unfold shift
    dsimp only
    rw [hmap]
  · have hlayout := hkeyed e.totalSubmitted (Order.shift o) ((id, order) :: e.openOrders)
    unfold shift
    dsimp only
    rw [show (host.layout e.totalSubmitted ((id, order) :: e.openOrders)).map (shiftEntry o) = _
      from hlayout.symm]
    rfl

theorem shift_submitLimit (hkeyed : host.Keyed) (id : OrderId) (symbol : Symbol) (side : Side)
    (price : Price) (quantity : Quantity) (now : Timestamp) :
    (e.submitLimit host id symbol side price quantity now).2.shift o =
      ((e.shift o).submitLimit host id symbol side price quantity (now + o.time)).2 :=
  shift_assign o host { e with totalSubmitted := e.totalSubmitted + 1 } hkeyed id _

theorem shift_cancel (id : OrderId) (now : Timestamp) :
    (e.cancel id now).2.shift o = ((e.shift o).cancel id (now + o.time)).2 := by
  have hfind : (e.shift o).openOrders.find? (·.1 = id) =
      (e.openOrders.find? (·.1 = id)).map (shiftEntry o) := List.find?_map
  have hfilter : (e.shift o).openOrders.filter (·.1 ≠ id) =
      (e.openOrders.filter (·.1 ≠ id)).map (shiftEntry o) := List.filter_map
  unfold cancel
  rw [hfind, hfilter]
  cases e.openOrders.find? (·.1 = id) with
  | none => rfl
  | some x =>
    unfold shift
    dsimp only [Option.map_some]
    rw [List.map_append]
    rfl

/-- The outcome of the loop, moved. -/
def Matched.shift (m : Matched F) : Matched F where
  orders := m.orders.map (shiftEntry o)
  reports := m.reports.map (ExecutionReport.shift o)
  toRemove := m.toRemove
  engine := m.engine.shift o

theorem shift_matchOrders (ev : MarketEvent) (os : List (OrderId × Order)) :
    (matchOrders host ev os e).shift o =
      matchOrders host (ev.shift o) (os.map (shiftEntry o)) (e.shift o) := by
  induction os generalizing e with
  | nil => rfl
  | cons x os ih =>
    obtain ⟨id, order⟩ := x
    have hhits : Hits (order.shift o) (ev.shift o) ↔ Hits order ev := Iff.rfl
    have hqty : (e.shift o).fillQuantity host (order.shift o) (ev.shift o) =
        e.fillQuantity host order ev := rfl
    rw [List.map_cons, matchOrders, shiftEntry, matchOrders, hqty]
    generalize e.fillQuantity host order ev = r
    obtain ⟨fillQty, rng⟩ := r
    simp only [hhits]
    split_ifs
    · exact congrArg (Matched.keep (id, order.shift o)) (ih { e with rng })
    · have hrest := ih ({ e with rng }.makeFillReport order order.price fillQty ev.timestamp).2.2
      exact congrArg (Matched.fill (id, (order.fill fillQty ev.timestamp).shift o)
        ((e.fillReport (order.fill fillQty ev.timestamp) order.price fillQty
          ev.timestamp).shift o)) hrest
    · exact congrArg (Matched.keep (id, order.shift o)) (ih e)

theorem Matched.shift_left (m : Matched F) : (m.shift o).left = m.left.map (shiftEntry o) :=
  List.filter_map

theorem Matched.shift_gone (m : Matched F) : (m.shift o).gone = m.gone.map (Order.shift o) := by
  unfold gone Matched.shift
  dsimp only
  rw [List.filter_map, List.map_map, List.map_map]
  rfl

/-- **The matching** of the event moved. -/
theorem shift_onMarketEvent (ev : MarketEvent) :
    (e.shift o).onMarketEvent host (ev.shift o) =
      ((e.onMarketEvent host ev).1.map (ExecutionReport.shift o),
        (e.onMarketEvent host ev).2.shift o) := by
  have htype : (ev.shift o).type = ev.type := rfl
  unfold onMarketEvent
  rw [htype]
  split_ifs
  · rfl
  · have hmatch : matchOrders host (ev.shift o) (e.shift o).openOrders (e.shift o) =
        (matchOrders host ev e.openOrders e).shift o := (shift_matchOrders o host e ev _).symm
    dsimp only
    rw [hmatch, Matched.shift_left, Matched.shift_gone]
    refine Prod.ext rfl ?_
    unfold shift
    dsimp only
    rw [List.map_append]
    rfl

end PaperExecutionEngine

/-! ## The pipeline -/

namespace Pipeline

/-- The pipeline with all times and sequence numbers moved. -/
def shift (p : Pipeline F) : Pipeline F :=
  { p with
    book := p.book.shift o
    micro := p.micro.shift o
    exec := p.exec.shift o
    lastSequence := p.lastSequence.map (· + o.sequence)
    lastEventTs := p.lastEventTs.map (· + o.time) }

section Stages

variable (host : Host F) (p : Pipeline F)

theorem shift_setResting (s : BookSide) (q : Option RestingQuote) :
    (p.setResting s q).shift o = (p.shift o).setResting s q := by cases s <;> rfl

theorem shift_resting (s : BookSide) : (p.shift o).resting s = p.resting s := by cases s <;> rfl

theorem shift_stageClock : (p.shift o).stageClock host =
    ((p.stageClock host).1, (p.stageClock host).2.shift o) := by
  unfold stageClock
  show (if p.profileStages then _ else _) = _
  split_ifs <;> rfl

theorem shift_recordStages (t0 t1 : ℤ) :
    (p.recordStages host t0 t1).shift o = (p.shift o).recordStages host t0 t1 := by
  unfold recordStages
  show _ = if p.profileStages then _ else _
  split_ifs <;> rfl

theorem shift_cancelSide (s : BookSide) (now : Timestamp) :
    (p.cancelSide s now).shift o = (p.shift o).cancelSide s (now + o.time) := by
  unfold cancelSide
  rw [shift_resting]
  cases p.resting s with
  | none => rfl
  | some quote =>
    have hcancel := PaperExecutionEngine.shift_cancel o p.exec quote.id now
    dsimp only
    rw [shift_setResting]
    unfold shift
    dsimp only
    rw [hcancel]

theorem shift_cancelRestingQuotes (now : Timestamp) : (p.cancelRestingQuotes now).shift o =
    (p.shift o).cancelRestingQuotes (now + o.time) := by
  unfold cancelRestingQuotes
  rw [shift_cancelSide, shift_cancelSide]

theorem shift_outOfOrder (ev : MarketEvent) :
    (p.shift o).outOfOrder (ev.shift o) = p.outOfOrder ev := by
  unfold outOfOrder shift MarketEvent.shift
  cases p.lastSequence with
  | none => rfl
  | some n => exact decide_eq_decide.mpr (Nat.add_le_add_iff_right)

theorem shift_gap (ev : MarketEvent) : (p.shift o).gap (ev.shift o) = p.gap ev := by
  unfold gap shift MarketEvent.shift
  cases p.lastSequence with
  | none => rfl
  | some n => exact decide_eq_decide.mpr (by dsimp only; lia)

theorem shift_stale (ev : MarketEvent) : (p.shift o).stale (ev.shift o) = p.stale ev := by
  unfold stale shift MarketEvent.shift
  cases p.lastEventTs with
  | none => rfl
  | some ts =>
    refine decide_eq_decide.mpr ?_
    dsimp only
    rw [add_sub_add_right_eq_sub]

theorem shift_intake (ev : MarketEvent) :
    (p.intake ev).shift o = (p.shift o).intake (ev.shift o) := by
  have htrack : (p.shift o).track (ev.shift o) = (p.track ev).shift o := by
    unfold track
    rw [shift_gap, shift_stale]
    rfl
  unfold intake resync
  rw [shift_gap, shift_stale, htrack]
  split_ifs
  · have hcancel := shift_cancelRestingQuotes o (p.track ev) ev.timestamp
    have hts : (ev.shift o).timestamp = ev.timestamp + o.time := rfl
    rw [hts, ← hcancel]
    rfl
  · rfl

theorem shift_observe (ev : MarketEvent) :
    (p.observe host ev).shift o = (p.shift o).observe host (ev.shift o) := by
  have hbook := OrderBook.shift_apply o p.book ev
  have hmicro := MicrostructureCalculator.shift_onBookUpdate o host.toLibm p.micro (p.book.apply ev)
  have htype : (ev.shift o).type = ev.type := rfl
  rw [hbook] at hmicro
  unfold observe
  rw [htype]
  dsimp only
  split_ifs with ht
  · have htrade := MicrostructureCalculator.shift_onTrade o
      (p.micro.onBookUpdate host.toLibm (p.book.apply ev)) ev.quantity ev.timestamp
    rw [hmicro] at htrade
    unfold shift
    dsimp only
    rw [hbook, htrade]
    rfl
  · unfold shift
    dsimp only
    rw [hbook, hmicro]

/-- The fill of a report reaches the portfolio and the counters. -/
def credit (p : Pipeline F) (report : ExecutionReport) : Pipeline F :=
  if report.fillQuantity > 0 then
    { p with
      portfolio := p.portfolio.onFill report.side report.fillPrice report.fillQuantity
      stats :=
        { p.stats with
          fills := p.stats.fills + 1
          partialFills :=
            if report.status = .partiallyFilled then p.stats.partialFills + 1
            else p.stats.partialFills } }
  else p

/-- A filled order leaves its slot. -/
def release (p : Pipeline F) (id : OrderId) : Pipeline F :=
  { p with
    restingBid := if p.restingBid.any (·.id = id) then none else p.restingBid
    restingAsk := if p.restingAsk.any (·.id = id) then none else p.restingAsk }

theorem applyReport_release (r : ExecutionReport) : p.applyReport r =
    if r.status = .filled then (p.credit r).release r.orderId else p.credit r := by
  have hrelease (q : Pipeline F) :
      (let q := if q.restingBid.any (·.id = r.orderId) then { q with restingBid := none } else q
      if q.restingAsk.any (·.id = r.orderId) then { q with restingAsk := none } else q) =
        q.release r.orderId := by
    unfold release
    dsimp only
    by_cases hb : q.restingBid.any (·.id = r.orderId) = true
    · rw [if_pos hb, if_pos hb]
      dsimp only
      split_ifs <;> rfl
    · rw [if_neg hb, if_neg hb]
      split_ifs <;> rfl
  rw [← hrelease]
  rfl

theorem shift_applyReport (r : ExecutionReport) :
    (p.applyReport r).shift o = (p.shift o).applyReport (r.shift o) := by
  have hcredit : (p.credit r).shift o = (p.shift o).credit (r.shift o) := by
    unfold credit
    show _ = if r.fillQuantity > 0 then _ else _
    by_cases hq : r.fillQuantity > 0
    · rw [if_pos hq, if_pos hq]
      rfl
    · rw [if_neg hq, if_neg hq]
  rw [applyReport_release, applyReport_release, ← hcredit]
  show _ = if r.status = .filled then _ else _
  split_ifs <;> rfl

theorem shift_foldl_applyReport (rs : List ExecutionReport) : (rs.foldl applyReport p).shift o =
    (rs.map (ExecutionReport.shift o)).foldl applyReport (p.shift o) := by
  induction rs generalizing p with
  | nil => rfl
  | cons r rs ih =>
    rw [List.foldl_cons, ih, shift_applyReport, List.map_cons, List.foldl_cons]

theorem shift_mark : p.mark.shift o = (p.shift o).mark := by
  have hmid : ((p.shift o).book.midPrice : Option F) = p.book.midPrice := rfl
  unfold mark
  rw [hmid]
  cases (p.book.midPrice : Option F) <;> rfl

theorem shift_execute (ev : MarketEvent) :
    (p.execute host ev).shift o = (p.shift o).execute host (ev.shift o) := by
  have hmatch : (p.shift o).exec.onMarketEvent host (ev.shift o) = _ :=
    PaperExecutionEngine.shift_onMarketEvent o host p.exec ev
  unfold execute takeFills
  rw [hmatch, shift_mark, shift_foldl_applyReport]
  rfl

theorem shift_submit (hkeyed : host.Keyed) (s : BookSide) (price : Price) (size : Quantity)
    (ref : F) (now : Timestamp) : (p.submit host s price size ref now).shift o =
      (p.shift o).submit host s price size ref (now + o.time) := by
  have hrecord : (p.shift o).riskRecord s size ref = p.riskRecord s size ref := by
    unfold riskRecord
    rw [show (p.shift o).exec.openOrderCount = p.exec.openOrderCount from
      PaperExecutionEngine.shift_openOrderCount o p.exec]
    rfl
  unfold submit
  rw [hrecord]
  dsimp only
  split_ifs
  · rfl
  · have hexec := PaperExecutionEngine.shift_submitLimit o host p.exec hkeyed p.nextOrderId
      p.book.symbol s.side price size now
    rw [shift_setResting]
    unfold shift
    dsimp only
    rw [hexec]
    rfl

theorem shift_withdraw (s : BookSide) (qd : QuoteDecision) (now : Timestamp) :
    (p.withdraw s qd now).shift o = (p.shift o).withdraw s qd (now + o.time) := by
  unfold withdraw
  rw [← shift_cancelSide]
  split_ifs <;> rfl

theorem shift_replace (hkeyed : host.Keyed) (s : BookSide) (qd : QuoteDecision) (ref : F)
    (ticks : ℤ) (now : Timestamp) : (p.replace host s qd ref ticks now).shift o =
      (p.shift o).replace host s qd ref ticks (now + o.time) := by
  unfold replace
  rw [shift_resting, ← shift_cancelSide, ← shift_submit o host _ hkeyed]
  split_ifs <;> rfl

theorem shift_requote (hkeyed : host.Keyed) (now : Timestamp) :
    (p.requote host now).shift o = (p.shift o).requote host (now + o.time) := by
  have hsides (q : Pipeline F) :
      (q.requoteSides host now).shift o = (q.shift o).requoteSides host (now + o.time) := by
    have hdecision : (q.shift o).decision host (now + o.time) = q.decision host now :=
      StrategyConfig.decide_shift o q.strategy host.toLibm q.book q.micro _ now
    unfold requoteSides
    rw [hdecision]
    dsimp only
    rw [shift_replace o host _ hkeyed, shift_replace o host _ hkeyed, shift_withdraw,
      shift_withdraw]
    rfl
  have hread : (p.shift o).readClock host =
      ((p.readClock host).1, (p.readClock host).2.shift o) := rfl
  unfold requote
  rw [hread]
  dsimp only
  rw [← hsides]
  rfl

theorem shift_settle (hkeyed : host.Keyed) (ev : MarketEvent) :
    (p.settle host ev).shift o = (p.shift o).settle host (ev.shift o) := by
  unfold settle
  show _ = if p.book.crossed then _ else if bookChanged ev then _ else _
  rw [show (ev.shift o).timestamp = ev.timestamp + o.time from rfl,
    ← shift_requote o host p hkeyed]
  split_ifs
  · rw [shift_cancelRestingQuotes]
    rfl
  · rfl
  · rfl

theorem shift_unsettled (ev : MarketEvent) :
    (p.unsettled host ev).shift o = (p.shift o).unsettled host (ev.shift o) := by
  unfold unsettled
  rw [← shift_intake, shift_stageClock]
  dsimp only
  rw [← shift_observe, shift_stageClock]
  dsimp only
  rw [shift_recordStages, shift_execute]

end Stages

/-! ## One call -/

variable {host : Host F}

theorem shift_process (hkeyed : host.Keyed) (p : Pipeline F) (ev : MarketEvent) :
    (p.process host ev).shift o = (p.shift o).process host (ev.shift o) := by
  have horder := shift_outOfOrder o p ev
  cases ho : p.outOfOrder ev with
  | true =>
    rw [process_dropped ho, process_dropped (horder.trans ho)]
    rfl
  | false =>
    rw [process_accepted ho, process_accepted (horder.trans ho), shift_settle o host _ hkeyed,
      shift_unsettled]
    rfl

theorem shift_onClock (p : Pipeline F) (now : Timestamp) :
    (p.onClock now).shift o = (p.shift o).onClock (now + o.time) := by
  have hsilent : (p.shift o).silent (now + o.time) = p.silent now := by
    unfold silent shift
    cases p.lastEventTs with
    | none => rfl
    | some ts =>
      dsimp only [Option.map_some, Option.any_some]
      rw [add_sub_add_right_eq_sub]
  rw [onClock_eq, onClock_eq, hsilent]
  split_ifs
  · rw [shift_cancelRestingQuotes]
    rfl
  · rfl

/-- **Step lemma.** -/
theorem shift_call (hkeyed : host.Keyed) (p : Pipeline F) (c : Call) :
    (p.call host c).shift o = (p.shift o).call host (c.shift o) := by
  cases c with
  | process ev => exact shift_process o hkeyed p ev
  | onClock now => exact shift_onClock o p now

/-- **Run lemma.** -/
theorem shift_run (hkeyed : host.Keyed) (p : Pipeline F) (calls : List Call) :
    (run (call host) p calls).shift o = run (call host) (p.shift o) (calls.map (Call.shift o)) := by
  induction calls generalizing p with
  | nil => rfl
  | cons c calls ih =>
    have hstep := shift_call o hkeyed p c
    show (run (call host) (p.call host c) calls).shift o = run (call host)
      ((p.shift o).call host (c.shift o)) (calls.map (Call.shift o))
    rw [ih, hstep]

/-! ## The first event -/

/-- The pipeline with another book. -/
def withBook (p : Pipeline F) (b : OrderBook) : Pipeline F := { p with book := b }

theorem process_restamp (host : Host F) {p : Pipeline F} {b : OrderBook} {ev : MarketEvent}
    (hb : b.stamp ev = p.book.stamp ev) (hseq : p.lastSequence = none)
    (hts : p.lastEventTs = none) : (p.withBook b).process host ev = p.process host ev := by
  have happly : b.apply ev = p.book.apply ev := by
    unfold OrderBook.apply
    rw [hb]
  have hintake (q : Pipeline F) (hq : q.lastSequence = none) (hq' : q.lastEventTs = none) :
      q.intake ev = q.track ev := by
    unfold intake gap stale
    rw [hq, hq']
    rfl
  have hclock (q : Pipeline F) : (q.withBook b).stageClock host =
      ((q.stageClock host).1, (q.stageClock host).2.withBook b) := by
    unfold stageClock
    show (if q.profileStages then _ else _) = _
    split_ifs <;> rfl
  have hbook : ((p.counted.track ev).stageClock host).2.book = p.book := by
    unfold stageClock
    split_ifs <;> rfl
  have hobserve : (((p.counted.track ev).stageClock host).2.withBook b).observe host ev =
      ((p.counted.track ev).stageClock host).2.observe host ev := by
    unfold observe withBook
    rw [hbook]
    dsimp only
    rw [happly]
  have horder : p.outOfOrder ev = false := by
    unfold outOfOrder
    rw [hseq]
    rfl
  have htrack : (p.withBook b).counted.intake ev = (p.counted.track ev).withBook b :=
    hintake (p.withBook b).counted hseq hts
  rw [process_accepted (p := p.withBook b) horder, process_accepted horder]
  unfold unsettled
  rw [htrack, hintake p.counted hseq hts, hclock]
  dsimp only
  rw [hobserve]

/-- **Epochs do not matter.** If all times are moved by one amount, those of the events and those of
the clock, and all sequence numbers by another, then a run with at least one event does what it did,
with its times and sequence numbers moved. -/
theorem epoch_free (host : Host F) (hkeyed : host.Keyed) (symbol : Symbol)
    (cfg : PipelineConfig F) (o : Offset) (calls : List Call) (hany : delivered calls ≠ []) :
    after host symbol cfg (calls.map (Call.shift o)) = (after host symbol cfg calls).shift o := by
  induction calls with
  | nil => exact absurd rfl hany
  | cons c calls ih =>
    cases c with
    -- before the first event, the clock changes nothing
    | onClock now => exact ih hany
    | process ev =>
      have hfirst : ((new symbol cfg).process host ev).shift o =
          (new symbol cfg).process host (ev.shift o) := by
        rw [shift_process o hkeyed]
        exact process_restamp host (p := new symbol cfg) rfl rfl rfl
      have hrest := shift_run o hkeyed ((new symbol cfg).process host ev) calls
      rw [hfirst] at hrest
      exact hrest.symm

theorem lowHost_keyed : (lowHost F).Keyed := fun _ _ _ => rfl

/-- A quote on either side within a tenth of a second, then silence for a minute, noticed by the
second of two clock calls. -/
def silentMinute : List Call :=
  [.process (.makeQuote 1000000000 1 (.ofView [65]) .buy (.fromTicks 1000000) 10),
    .process (.makeQuote 1100000000 2 (.ofView [65]) .sell (.fromTicks 1000200) 10),
    .onClock 1200000000, .onClock 61100000000]

/-- An hour later and at other numbers. -/
theorem epoch_free_minute :
    let o : Offset := ⟨3600000000000, 41⟩
    after (lowHost ℚ) (.ofView [65]) {} (silentMinute.map (Call.shift o)) =
        (after (lowHost ℚ) (.ofView [65]) {} silentMinute).shift o ∧
      (after (lowHost ℚ) (.ofView [65]) {} silentMinute).stats.clockStaleEvents = 1 :=
  ⟨epoch_free (lowHost ℚ) lowHost_keyed (.ofView [65]) {} _ silentMinute (List.cons_ne_nil _ _),
    by decide +kernel⟩

end Pipeline

end Lob
