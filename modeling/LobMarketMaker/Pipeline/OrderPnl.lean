import LobMarketMaker.Pipeline.OrderRecord
import LobMarketMaker.Pipeline.Pnl
import LobMarketMaker.Portfolio.CashIdentity

/-!
# The profit and loss, order by order

An order fills piece by piece over many trades, and each piece reaches the portfolio as a report of
its own. What the portfolio has added up can be read off the orders: each counts as one fill at its
limit price for what it has filled so far.

* `Accrues`: a quantity of the portfolio to which each fill adds a rate for a share;
* `Fills.accrued`, `Booked.takeFills`: a trade adds to it what it adds to the orders;
* `conserves_booked`: so it is what the orders have accrued, through every call;
* **`pnl_of_orders`**: position, cash, turnover and, after an accepted event, the total P&L.
-/

set_option autoImplicit false

namespace Lob

open Foundation

/-- What an order has filled so far, as one fill at its limit price. -/
def Order.deal (o : Order) : Fill := ⟨o.side, o.price, o.filledQuantity⟩

/-- What orders have accrued at a rate for each filled share. -/
def accrued (rate : Side → Price → ℚ) (l : List Order) : ℚ :=
  (l.map fun o => (o.filledQuantity : ℚ) * rate o.side o.price).sum

/-- What reports have accrued at a rate for each filled share. -/
def reported (rate : Side → Price → ℚ) (rs : List ExecutionReport) : ℚ :=
  (rs.map fun r => (r.fillQuantity : ℚ) * rate r.side r.fillPrice).sum

section Accrued

variable {rate : Side → Price → ℚ} {l l' : List Order}

theorem accrued_append : accrued rate (l ++ l') = accrued rate l + accrued rate l' := by
  unfold accrued
  rw [List.map_append, List.sum_append]

theorem accrued_cons (o : Order) :
    accrued rate (o :: l) = o.filledQuantity * rate o.side o.price + accrued rate l := by
  unfold accrued
  rw [List.map_cons, List.sum_cons]

theorem accrued_perm (h : l.Perm l') : accrued rate l = accrued rate l' := (h.map _).sum_eq

theorem accrued_fill (o : Order) (q : Quantity) (now : Timestamp) :
    ((o.fill q now).filledQuantity : ℚ) * rate (o.fill q now).side (o.fill q now).price =
      o.filledQuantity * rate o.side o.price + q * rate o.side o.price := by
  show ((o.filledQuantity + q : ℤ) : ℚ) * rate o.side o.price = _
  rw [Int.cast_add, add_mul]

variable (rate) in
/-- **The orders accrue what is reported**, and every report fills something. -/
theorem PaperExecutionEngine.Fills.accrued {e : PaperExecutionEngine ℚ} {ev : MarketEvent}
    {os os' : List (OrderId × Order)} {rs : List ExecutionReport} {gone : List Order}
    (h : Fills e ev os rs os' gone) :
    Lob.accrued rate (gone ++ os'.map Prod.snd) =
        Lob.accrued rate (os.map Prod.snd) + reported rate rs ∧
      ∀ r ∈ rs, 0 < r.fillQuantity := by
  induction h with
  | nil => exact ⟨(add_zero _).symm, List.forall_mem_nil _⟩
  | skip x h ih =>
    obtain ⟨ih, hpos⟩ := ih
    refine ⟨?_, hpos⟩
    rw [List.map_cons, List.map_cons, accrued_perm List.perm_middle, accrued_cons, accrued_cons, ih]
    ring
  | part id o q hit hpos hlt hev h ih =>
    obtain ⟨ih, hrs⟩ := ih
    refine ⟨?_, List.forall_mem_cons.mpr ⟨hpos, hrs⟩⟩
    rw [List.map_cons, List.map_cons, accrued_perm List.perm_middle, accrued_cons, accrued_cons,
      accrued_fill, ih]
    unfold reported
    rw [List.map_cons, List.sum_cons]
    show _ = _ + (q * rate o.side o.price + _)
    ring
  | full id o hit hpos hev h ih =>
    obtain ⟨ih, hrs⟩ := ih
    refine ⟨?_, List.forall_mem_cons.mpr ⟨hpos, hrs⟩⟩
    rw [List.cons_append, List.map_cons, accrued_cons, accrued_cons, accrued_fill, ih]
    unfold reported
    rw [List.map_cons, List.sum_cons]
    show _ = _ + (o.remainingQuantity * rate o.side o.price + _)
    ring

end Accrued

namespace Pipeline

/-- A quantity of the portfolio to which each fill adds `rate` for a share, and a mark nothing. -/
structure Accrues (G : PositionState ℚ → ℚ) (rate : Side → Price → ℚ) : Prop where
  congr : ∀ {p q : Pipeline ℚ}, SameRecord p q → G q.portfolio.state = G p.portfolio.state
  zero : G {} = 0
  onFill : ∀ (p : Portfolio ℚ) (f : Fill), 0 < f.quantity →
    G (p.onFill f.side f.price f.quantity).state = G p.state + f.quantity * rate f.side f.price

variable {G : PositionState ℚ → ℚ} {rate : Side → Price → ℚ} {p : Pipeline ℚ}

theorem Accrues.applyReport (h : Accrues G rate) (p : Pipeline ℚ) {r : ExecutionReport}
    (hr : 0 < r.fillQuantity) : G (p.applyReport r).portfolio.state =
      G p.portfolio.state + r.fillQuantity * rate r.side r.fillPrice := by
  have hp : (p.applyReport r).portfolio =
      p.portfolio.onFill r.side r.fillPrice r.fillQuantity := by
    unfold Pipeline.applyReport
    dsimp only
    rw [if_pos hr]
    split_ifs <;> rfl
  rw [hp]
  exact h.onFill p.portfolio ⟨r.side, r.fillPrice, r.fillQuantity⟩ hr

theorem Accrues.foldl_applyReport (h : Accrues G rate) (rs : List ExecutionReport)
    (hrs : ∀ r ∈ rs, 0 < r.fillQuantity) (p : Pipeline ℚ) :
    G (rs.foldl Pipeline.applyReport p).portfolio.state =
      G p.portfolio.state + reported rate rs := by
  induction rs generalizing p with
  | nil => exact (add_zero _).symm
  | cons r rs ih =>
    obtain ⟨hr, hrs⟩ := List.forall_mem_cons.mp hrs
    rw [List.foldl_cons, ih hrs, h.applyReport p hr, reported, reported, List.map_cons,
      List.sum_cons, add_assoc]

/-- The portfolio holds what the orders on record have accrued. -/
structure Booked (limits : RiskLimits ℚ) (G : PositionState ℚ → ℚ) (rate : Side → Price → ℚ)
    (p : Pipeline ℚ) : Prop extends Filed limits p where
  booked : G p.portfolio.state = accrued rate p.orders

variable {limits : RiskLimits ℚ}

/-- **Trades book what they fill.** -/
theorem Booked.takeFills (h : Booked limits G rate p) (hG : Accrues G rate) (host : Host ℚ)
    (ev : MarketEvent) : Booked limits G rate (p.takeFills host ev) := by
  refine ⟨h.toFiled.takeFills host ev, ?_⟩
  by_cases ht : ev.type = .trade
  · obtain ⟨rng, os', gone, hfills, he⟩ := takeFills_trade h.nodup_keys host ht
    obtain ⟨haccrued, hpos⟩ := hfills.accrued rate
    have hstate : G (p.takeFills host ev).portfolio.state =
        G p.portfolio.state + reported rate (p.exec.onMarketEvent host ev).1 :=
      hG.foldl_applyReport _ hpos _
    rw [hstate, h.booked, orders, orders, he]
    show _ = accrued rate ((p.exec.closed ++ gone) ++ os'.map Prod.snd)
    rw [List.append_assoc, accrued_append, accrued_append, haccrued, add_assoc]
  · rw [takeFills_of_ne ht]
    exact h.booked

theorem Booked.congr {q : Pipeline ℚ} (h : Booked limits G rate p) (hG : Accrues G rate)
    (hpq : SameRecord p q) : Booked limits G rate q := by
  refine ⟨h.toFiled.congr hpq, ?_⟩
  rw [hG.congr hpq, h.booked, orders, orders, hpq.exec]

theorem Booked.cancelSide (h : Booked limits G rate p) (s : BookSide) (now : Timestamp) :
    Booked limits G rate (p.cancelSide s now) := by
  obtain ⟨-, -, -, hperm, -⟩ := cancelSide_record h.nodup_keys s now
  refine ⟨h.toFiled.cancelSide s now, ?_⟩
  rw [(SameMarket.cancelSide p s now).portfolio, h.booked]
  exact accrued_perm hperm.symm

/-- **A new order** has accrued nothing. -/
theorem Booked.submit (h : Booked limits G rate p) (hG : Accrues G rate) (host : Host ℚ)
    (s : BookSide) (price : Price) (size : Quantity) (ref : ℚ) (now : Timestamp) :
    Booked limits G rate (p.submit host s price size ref now) := by
  rcases h.toFiled.submit_record host s price size ref now with
    hsame | ⟨q, o, hsame, -, -, -, -, -, horders, -, h0, -⟩
  · exact h.congr hG hsame
  · refine ⟨h.toFiled.submit host s price size ref now, ?_⟩
    have hrecord : (p.submit host s price size ref now).orders = q.orders := by
      rw [orders, orders, hsame.exec]
    rw [(SameMarket.submit host p s price size ref now).portfolio, h.booked, hrecord,
      accrued_perm horders, accrued_append, accrued_cons, h0, Int.cast_zero, zero_mul, zero_add]
    exact (add_zero _).symm

theorem conserves_booked (hG : Accrues G rate) (host : Host ℚ) (limits : RiskLimits ℚ) :
    Conserves host (Booked limits G rate) where
  congr h hpq := h.congr hG hpq
  cancelSide s now h := h.cancelSide s now
  submit s price size ref now h := h.submit hG host s price size ref now
  takeFills ev h := h.takeFills hG host ev

/-- **Run lemma.** The portfolio holds what the orders have accrued. -/
theorem after_accrued (hG : Accrues G rate) (host : Host ℚ) (symbol : Symbol)
    (cfg : PipelineConfig ℚ) (calls : List Call) :
    G (after host symbol cfg calls).portfolio.state =
      accrued rate (after host symbol cfg calls).orders :=
  ((conserves_booked hG host cfg.riskLimits).after
    ⟨filed_new symbol cfg, hG.zero⟩ calls).booked

/-! ## What accrues -/

/-- The sign with which `on_fill` counts a share. -/
def fillSign (side : Side) : ℚ := if side = .buy then 1 else -1

theorem shares_eq (f : Fill) : (f.shares : ℚ) = f.quantity * fillSign f.side := by
  unfold Fill.shares fillSign
  split_ifs
  · exact (mul_one _).symm
  · rw [Int.cast_neg, mul_neg_one]

theorem accrues_position : Accrues (fun s => (s.position : ℚ)) fun side _ => fillSign side where
  congr h := by rw [h.position]
  zero := Int.cast_zero
  onFill p f hf := by
    rw [(Portfolio.onFill_cash hf).1, Int.cast_add, shares_eq]

theorem accrues_cash :
    Accrues PositionState.cash fun side price => -(fillSign side * price.toDouble) where
  congr h := by
    unfold PositionState.cash
    rw [h.position, h.avgEntryPrice, h.realizedPnl]
  zero := by
    show (0 : ℚ) - 0 * 0 = 0
    norm_num
  onFill p f hf := by
    rw [(Portfolio.onFill_cash hf).2, shares_eq]
    ring

theorem accrues_turnover : Accrues (·.turnover) fun _ price => price.toDouble where
  congr h := h.turnover
  zero := rfl
  onFill p f hf := by
    unfold Portfolio.onFill
    dsimp only
    split_ifs <;> rfl

/-! ## The profit and loss -/

/-- The deals of the orders on record: each order as one fill of what it has filled. -/
def deals (p : Pipeline ℚ) : List Fill := p.orders.map Order.deal

theorem sum_deals {g : Fill → ℚ} (hg : ∀ f, g f = f.quantity * rate f.side f.price)
    (p : Pipeline ℚ) : (p.deals.map g).sum = accrued rate p.orders := by
  unfold deals accrued
  rw [List.map_map]
  exact congrArg List.sum (List.map_congr_left fun o _ => hg o.deal)

/-- **What the portfolio has added up is what the deals add up to.** -/
theorem after_deals (host : Host ℚ) (symbol : Symbol) (cfg : PipelineConfig ℚ)
    (calls : List Call) :
    let p := after host symbol cfg calls
    p.portfolio.state.position = quantityOf (buys p.deals) - quantityOf (sells p.deals) ∧
      p.portfolio.state.cash = notionalOf (sells p.deals) - notionalOf (buys p.deals) ∧
      p.portfolio.state.turnover = notionalOf p.deals := by
  intro p
  have hposition : (p.portfolio.state.position : ℚ) =
      (p.deals.map fun f => (f.shares : ℚ)).sum :=
    (after_accrued accrues_position host symbol cfg calls).trans (sum_deals shares_eq p).symm
  have hcash : p.portfolio.state.cash =
      (p.deals.map fun f => -((f.shares : ℚ) * f.price.toDouble)).sum := by
    refine (after_accrued accrues_cash host symbol cfg calls).trans (sum_deals (fun f => ?_) p).symm
    rw [shares_eq]
    ring
  refine ⟨?_, ?_, ?_⟩
  · rw [← Portfolio.sum_shares]
    have hcast : (((p.deals.map Fill.shares).sum : ℤ) : ℚ) =
        (p.deals.map fun f => (f.shares : ℚ)).sum :=
      (map_list_sum (Int.castRingHom ℚ) _).trans (congrArg List.sum List.map_map)
    exact_mod_cast hposition.trans hcast.symm
  · rw [hcash, ← neg_sub, ← Portfolio.sum_notional, List.sum_neg, List.map_map]
    rfl
  · exact (after_accrued accrues_turnover host symbol cfg calls).trans
      (sum_deals (fun _ => rfl) p).symm

/-- **The profit and loss, order by order.** In every reachable state the position is what the
orders on record have bought less what they have sold, the turnover is their value at their limit
prices, and the realized P&L is their net cash with the position taken at its average price. After
an accepted event that leaves the book two-sided the total P&L is the net cash of the orders and the
position at the mid price, however the fills came in. -/
theorem pnl_of_orders (host : Host ℚ) (symbol : Symbol) (cfg : PipelineConfig ℚ)
    (calls : List Call) :
    let p := after host symbol cfg calls
    p.portfolio.state.position = quantityOf (buys p.deals) - quantityOf (sells p.deals) ∧
    p.portfolio.state.turnover = notionalOf p.deals ∧
    p.portfolio.state.realizedPnl = notionalOf (sells p.deals) - notionalOf (buys p.deals) +
      p.portfolio.state.position * p.portfolio.state.avgEntryPrice ∧
    ∀ ev mid, p.outOfOrder ev = false →
      let p' := after host symbol cfg (calls ++ [.process ev])
      p'.book.midPrice = some mid →
      p'.portfolio.state.totalPnl = notionalOf (sells p'.deals) - notionalOf (buys p'.deals) +
        (quantityOf (buys p'.deals) - quantityOf (sells p'.deals)) * mid := by
  intro p
  obtain ⟨hposition, hcash, hturnover⟩ := after_deals host symbol cfg calls
  refine ⟨hposition, hturnover, ?_, ?_⟩
  · rw [← hcash, PositionState.cash]
    ring
  · intro ev mid hd p' hmid
    obtain ⟨hposition', hcash', -⟩ := after_deals host symbol cfg (calls ++ [.process ev])
    have h0 : (ofInt 0 : ℚ) = ofInt 0 + ofInt 0 := (add_zero _).symm
    have hl : p.Ledger := after_ledger host symbol cfg h0 calls
    obtain ⟨d, ht⟩ := exists_tracks host symbol cfg calls
    have hp' : p' = p.process host ev := run_concat _ _ _ _
    obtain ⟨hl', hm'⟩ := hl.process (after_healthy host symbol cfg calls) ht host hd
    rw [← hp'] at hl' hm'
    have htotal : p'.portfolio.state.totalPnl =
        p'.portfolio.state.realizedPnl + p'.portfolio.state.unrealizedPnl := hl'.consistent
    have hmarked : p'.portfolio.state.unrealizedPnl =
        p'.portfolio.state.position * (mid - p'.portfolio.state.avgEntryPrice) := hm' mid hmid
    rw [← hcash', ← Int.cast_sub, ← hposition', htotal, hmarked, PositionState.cash]
    ring

end Pipeline

end Lob
