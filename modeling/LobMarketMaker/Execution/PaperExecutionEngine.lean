import LobMarketMaker.Execution.Order
import LobMarketMaker.OrderBook.Model

/-!
# The paper execution engine

The hash map of open orders is the list of its entries in iteration order. `closed` collects the
orders that have left the engine, in their last state; the code does not keep them.

* `submitLimit`, `submitMarket`, `cancel`, `onMarketEvent`: the operations, as the code makes them;
* `Fills ev os rs os' gone`: the trade `ev` turns the open orders `os` into `os'`, reporting `rs`;
  the orders `gone` are filled and removed;
* **`onMarketEvent_fills`**: the loop with its deferred removal does that.
-/

set_option autoImplicit false

namespace Lob

open Foundation

/-- What the program takes from its surroundings. -/
structure Host (F : Type) extends Libm F where
  /-- The `n`-th value of a `uniform_real_distribution(lo, hi)` drawn from the generator. -/
  draw : ℕ → F → F → F
  /-- Where the hash map puts its entries at the `n`-th submission. -/
  layout : ℕ → List (OrderId × Order) → List (OrderId × Order)
  layout_perm : ∀ n l, (layout n l).Perm l
  /-- The `n`-th reading of the steady clock. -/
  steady : ℕ → ℤ

/-- A host whose draws are the lowest possible. As long as the mid price does not move, its logarithm
is only taken at `1` and its square root at `0`. -/
def lowHost (F : Type) [Double F] : Host F where
  log _ := ofInt 0
  sqrt x := x
  draw _ lo _ := lo
  layout _ l := l
  layout_perm _ _ := .refl _
  steady _ := 0

/-- How often and how far the engine fills in part, with the defaults of the code. -/
structure FillAssumptions (F : Type) [Double F] where
  partialFillProbability : F := ofInt 3 / ofInt 10
  minPartialFillRatio : F := ofInt 2 / ofInt 10
  maxPartialFillRatio : F := ofInt 9 / ofInt 10
  simulatedAckLatency : Timestamp := 50000
  rngSeed : ℕ := 42

/-- The members of the class. -/
structure PaperExecutionEngine (F : Type) [Double F] where
  assumptions : FillAssumptions F := {}
  /-- The number of values drawn from the generator. -/
  rng : ℕ := 0
  openOrders : List (OrderId × Order) := []
  totalSubmitted : ℕ := 0
  totalCanceled : ℕ := 0
  totalFilled : ℕ := 0
  totalPartialFills : ℕ := 0
  closed : List Order := []

/-- The order after a fill, as `make_fill_report` updates it. -/
def Order.fill (o : Order) (fillQty : Quantity) (now : Timestamp) : Order :=
  let o := { o with filledQuantity := o.filledQuantity + fillQty, lastUpdateTime := now }
  { o with status := if o.remainingQuantity = 0 then .filled else .partiallyFilled }

namespace PaperExecutionEngine

variable {F : Type} [Double F] (host : Host F) (e : PaperExecutionEngine F)

/-- `open_order_count()`. -/
def openOrderCount : ℕ := e.openOrders.length

/-- `get_order(id)`, null when the map has no such key. -/
def getOrder (id : OrderId) : Option Order := (e.openOrders.find? (·.1 = id)).map Prod.snd

/-- `open_orders_[id] = order`. -/
def assign (id : OrderId) (order : Order) : PaperExecutionEngine F :=
  { e with
    openOrders :=
      if e.openOrders.any (·.1 = id) then
        e.openOrders.map fun x => if x.1 = id then (id, order) else x
      else host.layout e.totalSubmitted ((id, order) :: e.openOrders) }

/-- `submit_limit`: the order rests, whatever the book shows. -/
def submitLimit (id : OrderId) (symbol : Symbol) (side : Side) (price : Price)
    (quantity : Quantity) (now : Timestamp) : ExecutionReport × PaperExecutionEngine F :=
  let e := { e with totalSubmitted := e.totalSubmitted + 1 }
  let order : Order :=
    { id, symbol, side, type := .limit, price, quantity, status := .new
      createdTime := now, lastUpdateTime := now }
  let report : ExecutionReport :=
    { orderId := id, symbol, side, status := .new, fillPrice := price, fillQuantity := 0
      remainingQuantity := quantity, timestamp := now
      submitToAckLatency := e.assumptions.simulatedAckLatency }
  (report, e.assign host id order)

/-- The loop over the opposite side: the filled quantity and its notional. -/
def sweep : List BookLevel → Quantity → Quantity → F → Quantity × F
  | [], _, filled, notional => (filled, notional)
  | level :: depth, remaining, filled, notional =>
    if remaining ≤ 0 then (filled, notional)
    else
      let take := min remaining level.quantity
      sweep depth (remaining - take) (filled + take)
        (notional + ofInt take * level.price.toDouble)

/-- `submit_market`: the opposite side is swept, at most 64 levels of it. -/
def submitMarket (id : OrderId) (symbol : Symbol) (side : Side) (quantity : Quantity)
    (book : OrderBook) (now : Timestamp) : ExecutionReport × PaperExecutionEngine F :=
  let e := { e with totalSubmitted := e.totalSubmitted + 1 }
  let oppositeDepth := if side = .buy then book.askDepth 64 else book.bidDepth 64
  let (filled, notional) : Quantity × F := sweep oppositeDepth quantity 0 (ofInt 0)
  let order : Order :=
    { id, symbol, side, type := .market, quantity, createdTime := now, lastUpdateTime := now
      filledQuantity := filled
      status :=
        if filled = quantity then .filled
        else if filled > 0 then .partiallyFilled
        else .rejected }
  let report : ExecutionReport :=
    { orderId := id, symbol, side, status := order.status
      fillPrice := if filled > 0 then Price.fromDouble (notional / ofInt filled) else {}
      fillQuantity := filled, remainingQuantity := 0, timestamp := now
      submitToAckLatency := e.assumptions.simulatedAckLatency
      reason := if filled = 0 then "no opposite-side liquidity available" else "" }
  let e := { e with closed := e.closed ++ [order] }
  let e :=
    if filled > 0 then
      { e with
        totalFilled := e.totalFilled + 1
        totalPartialFills :=
          if filled < quantity then e.totalPartialFills + 1 else e.totalPartialFills }
    else e
  (report, e)

/-- `cancel`: a report only if the order is open. -/
def cancel (id : OrderId) (now : Timestamp) : Option ExecutionReport × PaperExecutionEngine F :=
  match e.openOrders.find? (·.1 = id) with
  | none => (none, e)
  | some (_, order) =>
    let report : ExecutionReport :=
      { orderId := id, symbol := order.symbol, side := order.side, status := .canceled
        fillQuantity := 0, remainingQuantity := order.remainingQuantity, timestamp := now
        submitToAckLatency := e.assumptions.simulatedAckLatency }
    (some report,
      { e with
        openOrders := e.openOrders.filter (·.1 ≠ id)
        totalCanceled := e.totalCanceled + 1
        closed := e.closed ++ [order] })

/-! ## Fills -/

/-- The report of `make_fill_report` on the order it has updated. -/
def fillReport (order : Order) (fillPrice : Price) (fillQty : Quantity) (now : Timestamp) :
    ExecutionReport :=
  { orderId := order.id, symbol := order.symbol, side := order.side, status := order.status
    fillPrice, fillQuantity := fillQty, remainingQuantity := order.remainingQuantity
    timestamp := now, submitToAckLatency := e.assumptions.simulatedAckLatency }

/-- The counters of `make_fill_report`. -/
def countFill (status : OrderStatus) : PaperExecutionEngine F :=
  { e with
    totalFilled := e.totalFilled + 1
    totalPartialFills :=
      if status = .partiallyFilled then e.totalPartialFills + 1 else e.totalPartialFills }

/-- `make_fill_report`: the order, the report and the counters of one fill. -/
def makeFillReport (order : Order) (fillPrice : Price) (fillQty : Quantity) (now : Timestamp) :
    ExecutionReport × Order × PaperExecutionEngine F :=
  let order := order.fill fillQty now
  (e.fillReport order fillPrice fillQty now, order, e.countFill order.status)

/-- The order can trade with the print: same symbol, a limit order, and the price crosses. -/
def Hits (order : Order) (ev : MarketEvent) : Prop :=
  order.symbol.view = ev.symbol.view ∧ order.type = .limit ∧
    if order.side = .buy then ev.price ≤ order.price else ev.price ≥ order.price

instance (order : Order) (ev : MarketEvent) : Decidable (Hits order ev) := by
  unfold Hits; infer_instance

/-- The quantity drawn for an order that is hit, and the generator after the draws. -/
def fillQuantity (order : Order) (ev : MarketEvent) : Quantity × ℕ :=
  let isPartial := host.draw e.rng (ofInt 0) (ofInt 1) < e.assumptions.partialFillProbability
  let remaining := order.remainingQuantity
  let (fillQty, rng) :=
    if isPartial ∧ remaining > 1 then
      let ratio := host.draw (e.rng + 1) e.assumptions.minPartialFillRatio
        e.assumptions.maxPartialFillRatio
      (max 1 (toInt (ofInt remaining * ratio)), e.rng + 2)
    else (remaining, e.rng + 1)
  (min (min fillQty ev.quantity) remaining, rng)

/-- The outcome of the loop over the open orders. -/
structure Matched (F : Type) [Double F] where
  orders : List (OrderId × Order)
  reports : List ExecutionReport
  toRemove : List OrderId
  engine : PaperExecutionEngine F

/-- The loop passes an entry by. -/
def Matched.keep (x : OrderId × Order) (m : Matched F) : Matched F :=
  { m with orders := x :: m.orders }

/-- The loop has filled an entry. -/
def Matched.fill (x : OrderId × Order) (report : ExecutionReport) (m : Matched F) : Matched F :=
  { m with
    orders := x :: m.orders
    reports := report :: m.reports
    toRemove := if x.2.remainingQuantity = 0 then x.1 :: m.toRemove else m.toRemove }

/-- The loop of `on_market_event` over the open orders. -/
def matchOrders (ev : MarketEvent) :
    List (OrderId × Order) → PaperExecutionEngine F → Matched F
  | [], e => { orders := [], reports := [], toRemove := [], engine := e }
  | (id, order) :: rest, e =>
    if ¬ Hits order ev then (matchOrders ev rest e).keep (id, order)
    else
      let (fillQty, rng) := e.fillQuantity host order ev
      let e := { e with rng }
      if fillQty ≤ 0 then (matchOrders ev rest e).keep (id, order)
      else
        let (report, order, e) := e.makeFillReport order order.price fillQty ev.timestamp
        (matchOrders ev rest e).fill (id, order) report

/-- The entries that stay after the deferred removal. -/
def Matched.left (m : Matched F) : List (OrderId × Order) := m.orders.filter (·.1 ∉ m.toRemove)

/-- The orders that the deferred removal erases. -/
def Matched.gone (m : Matched F) : List Order :=
  (m.orders.filter (·.1 ∈ m.toRemove)).map Prod.snd

/-- `on_market_event`: a trade print fills open orders, which leave the map after the loop. -/
def onMarketEvent (ev : MarketEvent) : List ExecutionReport × PaperExecutionEngine F :=
  if ev.type ≠ .trade then ([], e)
  else
    let m := matchOrders host ev e.openOrders e
    (m.reports,
      { m.engine with
        openOrders := m.left
        closed := m.engine.closed ++ m.gone })

/-! ## What a trade does -/

/-- `Fills e ev os rs os' gone`: the trade `ev` meets the orders `os` one after the other. Each is
passed by, filled in part, or filled and removed; `os'` are left, `gone` removed, `rs` reported. -/
inductive Fills (ev : MarketEvent) : List (OrderId × Order) → List ExecutionReport →
    List (OrderId × Order) → List Order → Prop
  | nil : Fills ev [] [] [] []
  | skip {os rs os' gone} (x : OrderId × Order) (h : Fills ev os rs os' gone) :
      Fills ev (x :: os) rs (x :: os') gone
  | part {os rs os' gone} (id : OrderId) (o : Order) (q : Quantity) (hit : Hits o ev)
      (hpos : 0 < q) (hlt : q < o.remainingQuantity) (hev : q ≤ ev.quantity)
      (h : Fills ev os rs os' gone) :
      Fills ev ((id, o) :: os)
        (e.fillReport (o.fill q ev.timestamp) o.price q ev.timestamp :: rs)
        ((id, o.fill q ev.timestamp) :: os') gone
  | full {os rs os' gone} (id : OrderId) (o : Order) (hit : Hits o ev)
      (hpos : 0 < o.remainingQuantity) (hev : o.remainingQuantity ≤ ev.quantity)
      (h : Fills ev os rs os' gone) :
      Fills ev ((id, o) :: os)
        (e.fillReport (o.fill o.remainingQuantity ev.timestamp) o.price o.remainingQuantity
          ev.timestamp :: rs)
        os' (o.fill o.remainingQuantity ev.timestamp :: gone)

/-- The engine after a trade with these reports, but for the generator. -/
def afterFills (rng : ℕ) (rs : List ExecutionReport) (os' : List (OrderId × Order))
    (gone : List Order) : PaperExecutionEngine F :=
  { e with
    rng
    openOrders := os'
    closed := e.closed ++ gone
    totalFilled := e.totalFilled + rs.length
    totalPartialFills := e.totalPartialFills + rs.countP (·.status = .partiallyFilled) }

end PaperExecutionEngine

@[simp] theorem Order.fill_remaining (o : Order) (q : Quantity) (now : Timestamp) :
    (o.fill q now).remainingQuantity = o.remainingQuantity - q := by
  unfold Order.fill remainingQuantity
  lia

theorem Order.fill_status (o : Order) (q : Quantity) (now : Timestamp) :
    (o.fill q now).status = if o.remainingQuantity = q then .filled else .partiallyFilled := by
  unfold Order.fill remainingQuantity
  dsimp only
  congr 1
  exact propext (by lia)

namespace PaperExecutionEngine

variable {F : Type} [Double F] {host : Host F} {e : PaperExecutionEngine F} {ev : MarketEvent}

theorem fillQuantity_le (host : Host F) (e : PaperExecutionEngine F) (order : Order)
    (ev : MarketEvent) :
    (e.fillQuantity host order ev).1 ≤ ev.quantity ∧
      (e.fillQuantity host order ev).1 ≤ order.remainingQuantity := by
  unfold fillQuantity
  dsimp only
  split_ifs <;> exact ⟨(min_le_left _ _).trans (min_le_right _ _), min_le_right _ _⟩

/-- A limit order as `submit_limit` creates it. -/
def newLimit (id : OrderId) (symbol : Symbol) (side : Side) (price : Price) (quantity : Quantity)
    (now : Timestamp) : Order :=
  { id, symbol, side, type := .limit, price, quantity, status := .new
    createdTime := now, lastUpdateTime := now }

theorem submitLimit_fresh (host : Host F) {id : OrderId} (hid : ∀ x ∈ e.openOrders, x.1 ≠ id)
    (symbol : Symbol) (side : Side) (price : Price) (quantity : Quantity) (now : Timestamp) :
    ∃ os, os.Perm ((id, newLimit id symbol side price quantity now) :: e.openOrders) ∧
      (e.submitLimit host id symbol side price quantity now).2 =
        { e with totalSubmitted := e.totalSubmitted + 1, openOrders := os } := by
  refine ⟨_, host.layout_perm (e.totalSubmitted + 1) _, ?_⟩
  have hany : ¬ e.openOrders.any (·.1 = id) = true := by
    rw [List.any_eq_true]
    rintro ⟨x, hx, h⟩
    exact hid x hx (by simpa using h)
  unfold submitLimit assign
  dsimp only
  rw [if_neg hany]
  rfl

/-- One turn of the loop: the entry is passed by, or filled with a positive quantity that neither
the order nor the print exceeds. -/
theorem matchOrders_cons (host : Host F) (ev : MarketEvent) (id : OrderId) (o : Order)
    (rest : List (OrderId × Order)) (e : PaperExecutionEngine F) :
    (∃ rng, matchOrders host ev ((id, o) :: rest) e =
      (matchOrders host ev rest { e with rng }).keep (id, o)) ∨
    ∃ rng q, Hits o ev ∧ 0 < q ∧ q ≤ o.remainingQuantity ∧ q ≤ ev.quantity ∧
      matchOrders host ev ((id, o) :: rest) e =
        (matchOrders host ev rest
          ({ e with rng }.countFill (o.fill q ev.timestamp).status)).fill
            (id, o.fill q ev.timestamp)
            (e.fillReport (o.fill q ev.timestamp) o.price q ev.timestamp) := by
  rw [matchOrders]
  by_cases hit : Hits o ev
  · rw [if_neg (not_not.mpr hit)]
    obtain ⟨hev, hrem⟩ := fillQuantity_le host e o ev
    by_cases hq : (e.fillQuantity host o ev).1 ≤ 0
    · exact .inl ⟨_, if_pos hq⟩
    · exact .inr ⟨_, _, hit, not_le.mp hq, hrem, hev, if_neg hq⟩
  · rw [if_pos hit]
    exact .inl ⟨e.rng, rfl⟩

theorem Matched.left_keep {m : Matched F} {x : OrderId × Order} (hx : x.1 ∉ m.toRemove) :
    (m.keep x).left = x :: m.left ∧ (m.keep x).gone = m.gone := by
  unfold left gone keep
  rw [List.filter_cons_of_pos (by simpa using hx), List.filter_cons_of_neg (by simpa using hx)]
  exact ⟨rfl, rfl⟩

theorem Matched.left_fill_open {m : Matched F} {x : OrderId × Order} {r : ExecutionReport}
    (hx : x.1 ∉ m.toRemove) (h : x.2.remainingQuantity ≠ 0) :
    (m.fill x r).left = x :: m.left ∧ (m.fill x r).gone = m.gone ∧
      (m.fill x r).toRemove = m.toRemove := by
  unfold left gone fill
  rw [if_neg h, List.filter_cons_of_pos (by simpa using hx),
    List.filter_cons_of_neg (by simpa using hx)]
  exact ⟨rfl, rfl, rfl⟩

theorem Matched.left_fill_done {m : Matched F} {x : OrderId × Order} {r : ExecutionReport}
    (hx : x.1 ∉ m.orders.map Prod.fst) (h : x.2.remainingQuantity = 0) :
    (m.fill x r).left = m.left ∧ (m.fill x r).gone = x.2 :: m.gone ∧
      (m.fill x r).toRemove = x.1 :: m.toRemove := by
  have hne : ∀ y ∈ m.orders, y.1 ≠ x.1 := fun y hy h => hx (h ▸ List.mem_map_of_mem hy)
  have hleft : m.orders.filter (·.1 ∉ x.1 :: m.toRemove) = m.left :=
    List.filter_congr fun y hy => by simp [hne y hy]
  have hgone : m.orders.filter (·.1 ∈ x.1 :: m.toRemove) = m.orders.filter (·.1 ∈ m.toRemove) :=
    List.filter_congr fun y hy => by simp [hne y hy]
  refine ⟨?_, ?_, if_pos h⟩
  · rw [left, fill, if_pos h, List.filter_cons_of_neg (by simp)]
    exact hleft
  · rw [gone, fill, if_pos h, List.filter_cons_of_pos (by simp)]
    dsimp only
    rw [hgone]
    rfl

theorem afterFills_nil (rng : ℕ) : e.afterFills rng [] e.openOrders [] = { e with rng } := by
  simp [afterFills]

theorem afterFills_append (rng rng' : ℕ) (rs rs' : List ExecutionReport)
    (os os' : List (OrderId × Order)) (gone gone' : List Order) :
    (e.afterFills rng rs os gone).afterFills rng' rs' os' gone' =
      e.afterFills rng' (rs ++ rs') os' (gone ++ gone') := by
  simp [afterFills, Nat.add_assoc]

theorem afterFills_countFill (o : Order) (r : ExecutionReport) (hr : r.status = o.status)
    (rng rng' : ℕ) (rs : List ExecutionReport) (os : List (OrderId × Order)) (gone : List Order) :
    ({ e with rng := rng' }.countFill o.status).afterFills rng rs os gone =
      e.afterFills rng (r :: rs) os gone := by
  simp only [afterFills, countFill, List.length_cons, List.countP_cons, decide_eq_true_eq, hr]
  congr 1
  · omega
  · split_ifs <;> omega

/-- **The loop** keeps the keys, fills orders one by one, and counts what it reports. -/
theorem matchOrders_spec (host : Host F) (ev : MarketEvent) (e₀ : PaperExecutionEngine F)
    (os : List (OrderId × Order))
    (hk : (os.map Prod.fst).Nodup) (e : PaperExecutionEngine F)
    (he : e.assumptions = e₀.assumptions) :
    (matchOrders host ev os e).orders.map Prod.fst = os.map Prod.fst ∧
      (matchOrders host ev os e).toRemove ⊆ os.map Prod.fst ∧
      Fills e₀ ev os (matchOrders host ev os e).reports (matchOrders host ev os e).left
        (matchOrders host ev os e).gone ∧
      (matchOrders host ev os e).engine =
        e.afterFills (matchOrders host ev os e).engine.rng (matchOrders host ev os e).reports
          e.openOrders [] := by
  induction os generalizing e with
  | nil =>
    refine ⟨rfl, List.Subset.refl _, .nil, ?_⟩
    simp [matchOrders, afterFills]
  | cons x rest ih =>
    obtain ⟨id, o⟩ := x
    obtain ⟨hid, hk'⟩ := List.nodup_cons.mp hk
    rcases matchOrders_cons host ev id o rest e with
      ⟨rng, hm⟩ | ⟨rng, q, hit, hpos, hrem, hev, hm⟩
    · obtain ⟨h₁, h₂, h₃, h₄⟩ := ih hk' { e with rng } he
      rw [hm]
      generalize matchOrders host ev rest { e with rng } = m at h₁ h₂ h₃ h₄
      obtain ⟨hl, hg⟩ := Matched.left_keep (x := (id, o)) fun h => hid (h₂ h)
      refine ⟨congrArg (id :: ·) h₁, List.subset_cons_of_subset _ h₂, ?_, h₄⟩
      rw [hl, hg]
      exact .skip _ h₃
    · obtain ⟨h₁, h₂, h₃, h₄⟩ :=
        ih hk' ({ e with rng }.countFill (o.fill q ev.timestamp).status) he
      rw [hm]
      generalize matchOrders host ev rest
        ({ e with rng }.countFill (o.fill q ev.timestamp).status) = m at h₁ h₂ h₃ h₄
      have hreport : e.fillReport (o.fill q ev.timestamp) o.price q ev.timestamp =
          e₀.fillReport (o.fill q ev.timestamp) o.price q ev.timestamp := by
        unfold fillReport
        rw [he]
      rw [hreport]
      have hengine := h₄.trans (afterFills_countFill (o.fill q ev.timestamp)
        (e₀.fillReport (o.fill q ev.timestamp) o.price q ev.timestamp) rfl _ rng m.reports _ [])
      rcases hrem.lt_or_eq with hlt | rfl
      · obtain ⟨hl, hg, hr⟩ := Matched.left_fill_open
          (r := e₀.fillReport (o.fill q ev.timestamp) o.price q ev.timestamp)
          (x := (id, o.fill q ev.timestamp)) (fun h => hid (h₂ h))
          (by rw [Order.fill_remaining]; lia)
        refine ⟨congrArg (id :: ·) h₁, hr ▸ List.subset_cons_of_subset _ h₂, ?_, hengine⟩
        rw [hl, hg]
        exact .part id o q hit hpos hlt hev h₃
      · obtain ⟨hl, hg, hr⟩ := Matched.left_fill_done
          (r := e₀.fillReport (o.fill _ ev.timestamp) o.price _ ev.timestamp)
          (x := (id, o.fill o.remainingQuantity ev.timestamp)) (h₁ ▸ hid)
          (by rw [Order.fill_remaining]; lia)
        refine ⟨congrArg (id :: ·) h₁, hr ▸ List.cons_subset_cons _ h₂, ?_, hengine⟩
        rw [hl, hg]
        exact .full id o hit hpos hev h₃

/-- **What a trade does** to an engine whose map has one entry for each key. -/
theorem onMarketEvent_fills (host : Host F) (hk : (e.openOrders.map Prod.fst).Nodup)
    (ht : ev.type = .trade) :
    ∃ rng os' gone, Fills e ev e.openOrders (e.onMarketEvent host ev).1 os' gone ∧
      (e.onMarketEvent host ev).2 = e.afterFills rng (e.onMarketEvent host ev).1 os' gone := by
  obtain ⟨-, -, hfills, hengine⟩ := matchOrders_spec host ev e _ hk e rfl
  rw [onMarketEvent, if_neg (not_not.mpr ht)]
  dsimp only
  refine ⟨(matchOrders host ev e.openOrders e).engine.rng, _, _, hfills, ?_⟩
  rw [hengine]
  simp only [afterFills, List.append_nil]

theorem onMarketEvent_of_ne (ht : ev.type ≠ .trade) : e.onMarketEvent host ev = ([], e) :=
  if_pos ht

theorem matchOrders_of_not_hits (host : Host F) {os : List (OrderId × Order)}
    (h : ∀ x ∈ os, ¬ Hits x.2 ev) : matchOrders host ev os e =
      { orders := os, reports := [], toRemove := [], engine := e } := by
  induction os with
  | nil => rfl
  | cons x os ih =>
    obtain ⟨hx, hos⟩ := List.forall_mem_cons.mp h
    obtain ⟨id, o⟩ := x
    rw [matchOrders, if_pos hx, ih hos]
    rfl

/-- **A trade that hits nothing** changes nothing. -/
theorem onMarketEvent_of_not_hits (host : Host F) (h : ∀ x ∈ e.openOrders, ¬ Hits x.2 ev) :
    e.onMarketEvent host ev = ([], e) := by
  unfold onMarketEvent
  split_ifs
  · rfl
  · dsimp only
    rw [matchOrders_of_not_hits host h]
    simp [Matched.left, Matched.gone]

end PaperExecutionEngine

end Lob
