import LobMarketMaker.Execution.PrintedQuantity
import LobMarketMaker.Pipeline.History
import LobMarketMaker.Pipeline.Slots
import LobMarketMaker.Strategy.RoundedQuotes

/-!
# Hysteresis keeps the quotes tracked

* `Requote`, `requoteOf`, `lastRequote`: the decision and the threshold of the most recent requote;
* `Releases`: slots are emptied or kept; all stages but a requote do no more;
* `Within`: a resting quote has the size decided and lies within the threshold of its target;
  `requoteSides_within`: a requote leaves only such quotes;
* **`hysteresis_tracks`**: so does a whole run; and if the two targets are more than two thresholds
  apart, a trade hits one order at most.
-/

set_option autoImplicit false

namespace Lob

open Foundation

/-- What a requote decides. -/
structure Requote where
  decision : QuoteDecision
  thresholdTicks : ℤ

/-- The quote has the size decided for its side and lies within the threshold of its target. -/
structure Requote.Within (r : Requote) (s : BookSide) (quote : RestingQuote) : Prop where
  quoted : r.decision.quote s = true
  size : quote.size = r.decision.size s
  price : |quote.price.ticks - (r.decision.price s).ticks| ≤ r.thresholdTicks

/-- **Quotes within the threshold** of targets more than two thresholds apart do not cross. -/
theorem Requote.Within.lt {r : Requote} {bid ask : RestingQuote} (hbid : r.Within .bid bid)
    (hask : r.Within .ask ask)
    (hgap : r.decision.askPrice.ticks - r.decision.bidPrice.ticks > 2 * r.thresholdTicks) :
    bid.price < ask.price := by
  have hb := (abs_le.mp hbid.price).2
  have ha := (abs_le.mp hask.price).1
  rw [Price.lt_iff]
  change bid.price.ticks - r.decision.bidPrice.ticks ≤ _ at hb
  change _ ≤ ask.price.ticks - r.decision.askPrice.ticks at ha
  omega

namespace Pipeline

section Trace

variable {F : Type} [Double F] (host : Host F) (p : Pipeline F)

/-- The requote that a call makes, if it makes one. -/
def requoteOf : Call → Option Requote
  | .onClock _ => none
  | .process ev =>
    if p.outOfOrder ev then none
    else
      let q := p.counted.unsettled host ev
      if q.book.crossed then none
      else if bookChanged ev then
        some ⟨q.decision host ev.timestamp, q.thresholdTicks q.referencePrice⟩
      else none

/-- A call, and the most recent requote after it. -/
def traceCall (s : Pipeline F × Option Requote) (c : Call) : Pipeline F × Option Requote :=
  (s.1.call host c, (s.1.requoteOf host c).or s.2)

end Trace

/-! ## Slots between requotes -/

section Slots

variable {F : Type} [Double F] {host : Host F} {p q r : Pipeline F} {ev : MarketEvent}

/-- Every slot is emptied or kept. -/
def Releases (p q : Pipeline F) : Prop := ∀ s, q.resting s = none ∨ q.resting s = p.resting s

theorem Releases.refl (p : Pipeline F) : Releases p p := fun _ => .inr rfl

theorem Releases.trans (h : Releases p q) (h' : Releases q r) : Releases p r := fun s =>
  (h' s).elim .inl fun hr => (h s).imp hr.trans hr.trans

theorem Releases.congr (h : Releases p q) (hr : ∀ s, r.resting s = q.resting s) : Releases p r :=
  h.trans fun s => .inr (hr s)

theorem resting_eq_of_untimed (h : p.untimed = q.untimed) (s : BookSide) :
    p.resting s = q.resting s := by
  have hs := congrArg (fun p => p.resting s) h
  cases s <;> exact hs

theorem blind_releases (p : Pipeline F) : Blind (Releases p) := fun _ _ hq h =>
  h.congr fun s => (resting_eq_of_untimed hq s).symm

theorem Releases.of_empty (h : ∀ s, q.resting s = none) : Releases p q := fun s => .inl (h s)

theorem Releases.applyReport (p : Pipeline F) (report : ExecutionReport) :
    Releases p (p.applyReport report) := by
  intro s
  unfold Pipeline.applyReport
  dsimp only
  cases s <;> split_ifs <;> first | exact .inr rfl | exact .inl rfl

theorem Releases.foldl_applyReport (rs : List ExecutionReport) (p : Pipeline F) :
    Releases p (rs.foldl Pipeline.applyReport p) := by
  induction rs generalizing p with
  | nil => exact .refl p
  | cons report rs ih => exact (Releases.applyReport p report).trans (ih _)

theorem Releases.execute (host : Host F) (p : Pipeline F) (ev : MarketEvent) :
    Releases p (p.execute host ev) := by
  have ht : Releases p (p.takeFills host ev) :=
    Releases.trans (fun s => .inr (by cases s <;> rfl)) (Releases.foldl_applyReport _ _)
  unfold Pipeline.execute mark
  split
  · exact ht.congr fun s => by cases s <;> rfl
  · exact ht

theorem Releases.intake (p : Pipeline F) (ev : MarketEvent) : Releases p (p.intake ev) := by
  unfold Pipeline.intake
  split_ifs
  · refine .of_empty fun s => ?_
    have h := cancelRestingQuotes_resting (p.track ev) ev.timestamp s
    cases s <;> exact h
  · exact fun s => .inr (by cases s <;> rfl)

/-- **Before a requote** slots are emptied or kept. -/
theorem Releases.unsettled (host : Host F) (p : Pipeline F) (ev : MarketEvent) :
    Releases p (p.unsettled host ev) := by
  have hb := blind_releases p
  refine unsettled_rule hb hb hb (.intake p ev) (fun q hq => ?_) fun q hq => ?_
  · exact hq.congr fun s => by cases s <;> rfl
  · exact hq.trans (.execute host q ev)

theorem Releases.onClock (p : Pipeline F) (now : Timestamp) : Releases p (p.onClock now) := by
  rw [onClock_eq]
  split_ifs
  · exact .of_empty fun s => cancelRestingQuotes_resting _ now s
  · exact .refl p

/-! ## A requote -/

theorem submit_self (host : Host F) (p : Pipeline F) (s : BookSide) (price : Price)
    (size : Quantity) (ref : F) (now : Timestamp) :
    (p.submit host s price size ref now).resting s = p.resting s ∨
      (p.submit host s price size ref now).resting s = some ⟨p.nextOrderId, price, size⟩ := by
  unfold submit
  dsimp only
  split_ifs
  · exact .inl (by cases s <;> rfl)
  · exact .inr (resting_setResting_self _ _ _)

/-- **What rests after a replacement** is new, or was found good enough. -/
theorem replace_cases {s : BookSide} {qd : QuoteDecision} {ref : F} {ticks : ℤ} {now : Timestamp}
    {quote : RestingQuote} (h : (p.replace host s qd ref ticks now).resting s = some quote)
    (hq : qd.quote s = true) : (quote.price = qd.price s ∧ quote.size = qd.size s) ∨
      needsReplace (some quote) (qd.price s) (qd.size s) ticks = false := by
  unfold replace at h
  cases hr : needsReplace (p.resting s) (qd.price s) (qd.size s) ticks with
  | true =>
    rw [hq, hr, if_pos (by rfl)] at h
    rcases submit_self host (p.cancelSide s now) s (qd.price s) (qd.size s) ref now with hs | hs
    · rw [hs, cancelSide_self] at h
      cases h
    · rw [hs] at h
      cases h
      exact .inl ⟨rfl, rfl⟩
  | false =>
    rw [hr, Bool.and_false, if_neg Bool.false_ne_true] at h
    rw [h] at hr
    exact .inr hr

theorem needsReplace_eq_false {quote : RestingQuote} {target : Price} {size : Quantity} {ticks : ℤ}
    (h : needsReplace (some quote) target size ticks = false) :
    quote.size = size ∧ |quote.price.ticks - target.ticks| ≤ ticks := by
  unfold needsReplace at h
  dsimp only at h
  split_ifs at h with hsize hneg
  · have hle := not_lt.mp (of_decide_eq_false h)
    rw [abs_of_neg hneg]
    exact ⟨not_not.mp hsize, hle⟩
  · have hle := not_lt.mp (of_decide_eq_false h)
    rw [abs_of_nonneg (not_lt.mp hneg)]
    exact ⟨not_not.mp hsize, hle⟩

/-- **What rests after a requote** is quoted, and is new or was found good enough. -/
theorem requoteSides_cases {now : Timestamp} {s : BookSide} {quote : RestingQuote}
    (h : (p.requoteSides host now).resting s = some quote) :
    (p.decision host now).quote s = true ∧
      ((quote.price = (p.decision host now).price s ∧ quote.size = (p.decision host now).size s) ∨
        needsReplace (some quote) ((p.decision host now).price s) ((p.decision host now).size s)
          (p.thresholdTicks p.referencePrice) = false) := by
  have hq : (p.decision host now).quote s = true := by
    by_contra hq
    rw [requoteSides_resting (Bool.eq_false_iff.mpr hq)] at h
    cases h
  have hreplace : ∃ q : Pipeline F, (q.replace host s (p.decision host now) p.referencePrice
      (p.thresholdTicks p.referencePrice) now).resting s = some quote := by
    unfold requoteSides at h
    dsimp only at h
    cases s with
    | bid => exact ⟨_, (replace_other host _ .ask _ _ _ now).symm.trans h⟩
    | ask => exact ⟨_, h⟩
  obtain ⟨q, hquote⟩ := hreplace
  exact ⟨hq, replace_cases hquote hq⟩

/-- **A requote** leaves quotes with the size decided and within the threshold of their targets, as
long as the threshold is not negative when a side is quoted. -/
theorem requoteSides_within {now : Timestamp} {s : BookSide} {quote : RestingQuote}
    (hticks : (p.decision host now).quote s = true → 0 ≤ p.thresholdTicks p.referencePrice)
    (h : (p.requoteSides host now).resting s = some quote) :
    (⟨p.decision host now, p.thresholdTicks p.referencePrice⟩ : Requote).Within s quote := by
  obtain ⟨hq, ⟨hprice, hsize⟩ | hkept⟩ := requoteSides_cases h
  · refine ⟨hq, hsize, ?_⟩
    rw [hprice, sub_self, abs_zero]
    exact hticks hq
  · obtain ⟨hsize, hprice⟩ := needsReplace_eq_false hkept
    exact ⟨hq, hsize, hprice⟩

theorem requote_size {now : Timestamp} {s : BookSide} {quote : RestingQuote}
    (h : (p.requote host now).resting s = some quote) :
    quote.size = (p.decision host now).size s := by
  have hsides : ((p.readClock host).2.requoteSides host now).resting s = some quote := by
    cases s <;> exact h
  obtain ⟨-, ⟨-, hsize⟩ | hkept⟩ := requoteSides_cases hsides
  · exact hsize
  · exact (needsReplace_eq_false hkept).1

end Slots

end Pipeline

/-! ## The threshold -/

section Rational

variable {libm : Libm ℚ} {micro : MicrostructureCalculator ℚ}

theorem foldl_sq_nonneg (l : List ℚ) (mean : ℚ) {v : ℚ} (hv : 0 ≤ v) :
    0 ≤ l.foldl (fun v r => v + (r - mean) * (r - mean)) v := by
  induction l generalizing v with
  | nil => exact hv
  | cons r l ih => exact ih (add_nonneg hv (mul_self_nonneg _))

theorem shortTermVolatility_nonneg (hsqrt : ∀ x, 0 ≤ x → 0 ≤ libm.sqrt x) :
    0 ≤ (micro.shortTermVolatility libm).getD (ofInt 0) := by
  unfold MicrostructureCalculator.shortTermVolatility
  split_ifs with hlen
  · exact le_refl _
  · have hn : (0 : ℤ) ≤ (micro.returns.length : ℤ) - 1 := by omega
    refine hsqrt _ (div_nonneg (foldl_sq_nonneg _ _ (le_refl _)) ?_)
    rw [ofInt_rat]
    exact_mod_cast hn

theorem StrategyConfig.Quotes.mid_pos {cfg : StrategyConfig ℚ} {book : OrderBook}
    {inventory : Quantity} {now : Timestamp} {mid : ℚ}
    (hq : cfg.Quotes libm book micro inventory now mid) (hspread : 0 ≤ cfg.baseHalfSpreadBps)
    (hvol : 0 ≤ cfg.volatilitySpreadMultiplier) (hsqrt : ∀ x, 0 ≤ x → 0 ≤ libm.sqrt x) :
    0 < mid := by
  have hbps : 0 ≤ cfg.baseHalfSpreadBps * (1 + cfg.volatilitySpreadMultiplier *
      ((micro.shortTermVolatility libm).getD (ofInt 0) * 10000)) := by
    have : 0 ≤ (micro.shortTermVolatility libm).getD (ofInt 0) := shortTermVolatility_nonneg hsqrt
    positivity
  have hhalf : cfg.halfSpreadDollars libm micro mid = mid * (cfg.baseHalfSpreadBps *
      (1 + cfg.volatilitySpreadMultiplier *
        ((micro.shortTermVolatility libm).getD (ofInt 0) * 10000))) / 10000 := rfl
  have hlt := hq.bid_lt_ask
  unfold bidDollars askDollars at hlt
  rw [hhalf] at hlt
  by_contra hmid
  have hprod := mul_nonpos_of_nonpos_of_nonneg (not_lt.mp hmid) hbps
  linarith

variable {p : Pipeline ℚ} {host : Host ℚ} {now : Timestamp}

/-- **The threshold of a requote that quotes** is not negative. -/
theorem Pipeline.thresholdTicks_nonneg {s : BookSide} (hspread : 0 ≤ p.strategy.baseHalfSpreadBps)
    (hvol : 0 ≤ p.strategy.volatilitySpreadMultiplier) (hbps : 0 ≤ p.requoteThresholdBps)
    (hsqrt : ∀ x, 0 ≤ x → 0 ≤ host.sqrt x) (hq : (p.decision host now).quote s = true) :
    0 ≤ p.thresholdTicks p.referencePrice := by
  rcases p.strategy.decide_cases host.toLibm p.book p.micro p.portfolio.state.position now with
    ⟨-, hno⟩ | ⟨mid, hquotes, -⟩
  · exact nomatch (hno s).symm.trans hq
  · have hmid := hquotes.mid_pos hspread hvol hsqrt
    have href : p.referencePrice = mid := by
      unfold Pipeline.referencePrice
      rw [hquotes.midPrice]
      rfl
    rw [href]
    show 0 ≤ toInt (mid * p.requoteThresholdBps / 10000 * 10000 : ℚ)
    have hnonneg : 0 ≤ mid * p.requoteThresholdBps / 10000 * 10000 := by positivity
    rw [toInt_of_nonneg hnonneg]
    exact Int.floor_nonneg.mpr hnonneg

end Rational

namespace Pipeline

/-! ## Runs -/

section Runs

variable {host : Host ℚ} {cfg : PipelineConfig ℚ} {p q : Pipeline ℚ} {r : Option Requote}

/-- The configuration that the quoting stage reads is that of the constructor. -/
structure Configured (cfg : PipelineConfig ℚ) (p : Pipeline ℚ) : Prop where
  strategy : p.strategy = cfg.strategy
  requoteThresholdBps : p.requoteThresholdBps = cfg.strategy.requoteThresholdBps

theorem Configured.congr (h : Configured cfg p) (hq : SameFeed p q) : Configured cfg q :=
  ⟨hq.strategy.trans h.strategy, hq.requoteThresholdBps.trans h.requoteThresholdBps⟩

theorem Configured.unsettled (h : Configured cfg p) (host : Host ℚ) (ev : MarketEvent) :
    Configured cfg (p.unsettled host ev) := by
  have hb : Blind (Configured cfg) := blind_of (fun _ h => { h with }) (fun _ h => { h with })
  refine unsettled_rule hb hb hb ?_ (fun q hq => { hq with }) fun q hq =>
    hq.congr (.execute host q ev)
  unfold intake
  split_ifs
  · have hc := (SameMarket.cancelRestingQuotes (p.track ev) ev.timestamp).toSameFeed
    exact ⟨hc.strategy.trans h.strategy, hc.requoteThresholdBps.trans h.requoteThresholdBps⟩
  · exact { h with }

/-- Every resting quote is within the threshold of the most recent requote. -/
def Tracked (p : Pipeline ℚ) (r : Option Requote) : Prop :=
  ∀ s quote, p.resting s = some quote → ∃ requote, r = some requote ∧ requote.Within s quote

theorem Tracked.congr (h : Tracked p r) (hq : Releases p q) : Tracked q r := by
  intro s quote hs
  rcases hq s with hnone | hkept
  · rw [hnone] at hs
    cases hs
  · exact h s quote (hkept.symm.trans hs)

/-- The invariant of a traced run. -/
structure Traced (cfg : PipelineConfig ℚ) (s : Pipeline ℚ × Option Requote) : Prop where
  configured : Configured cfg s.1
  tracked : Tracked s.1 s.2

theorem Configured.onClock (h : Configured cfg p) (now : Timestamp) :
    Configured cfg (p.onClock now) := by
  rw [onClock_eq]
  split_ifs
  · have hc := (SameMarket.cancelRestingQuotes p.alarmed now).toSameFeed
    exact ⟨hc.strategy.trans h.strategy, hc.requoteThresholdBps.trans h.requoteThresholdBps⟩
  · exact h

variable (hspread : 0 ≤ cfg.strategy.baseHalfSpreadBps)
  (hvol : 0 ≤ cfg.strategy.volatilitySpreadMultiplier)
  (hbps : 0 ≤ cfg.strategy.requoteThresholdBps) (hsqrt : ∀ x, 0 ≤ x → 0 ≤ host.sqrt x)

include hspread hvol hbps hsqrt

/-- **A requote** is the one to track from there on. -/
theorem Configured.requote (h : Configured cfg q) (now : Timestamp) :
    Tracked (q.requote host now)
      (some ⟨q.decision host now, q.thresholdTicks q.referencePrice⟩) := by
  intro s quote hs
  refine ⟨_, rfl, ?_⟩
  have hsides : ((q.readClock host).2.requoteSides host now).resting s = some quote := by
    cases s <;> exact hs
  refine requoteSides_within (p := (q.readClock host).2) (fun hquote => ?_) hsides
  refine thresholdTicks_nonneg ?_ ?_ ?_ hsqrt hquote
  · show 0 ≤ q.strategy.baseHalfSpreadBps
    rw [h.strategy]
    exact hspread
  · show 0 ≤ q.strategy.volatilitySpreadMultiplier
    rw [h.strategy]
    exact hvol
  · show 0 ≤ q.requoteThresholdBps
    rw [h.requoteThresholdBps]
    exact hbps

/-- **Step lemma.** -/
theorem Traced.call {s : Pipeline ℚ × Option Requote} (h : Traced cfg s) (c : Call) :
    Traced cfg (traceCall host s c) := by
  obtain ⟨p, r⟩ := s
  obtain ⟨hconf, htrack⟩ := h
  cases c with
  | onClock now => exact ⟨hconf.onClock now, htrack.congr (.onClock p now)⟩
  | process ev =>
    show Traced cfg (p.process host ev, (p.requoteOf host (.process ev)).or r)
    cases hd : p.outOfOrder ev with
    | true =>
      have hr : p.requoteOf host (.process ev) = none := if_pos hd
      rw [hr, process_dropped hd]
      exact ⟨{ hconf with }, htrack.congr fun s => .inr (by cases s <;> rfl)⟩
    | false =>
      have hr : p.requoteOf host (.process ev) = _ := if_neg (Bool.eq_false_iff.mp hd)
      rw [hr, process_accepted hd]
      have hcounted : Configured cfg p.counted := { hconf with }
      have hq := hcounted.unsettled host ev
      have hslots : Releases p (p.counted.unsettled host ev) :=
        Releases.trans (fun s => .inr (by cases s <;> rfl)) (Releases.unsettled host p.counted ev)
      generalize p.counted.unsettled host ev = q at hq hslots ⊢
      refine ⟨hq.congr (SameFeed.settle host q ev), ?_⟩
      dsimp only
      unfold settle
      split_ifs
      · exact htrack.congr (.of_empty fun s => cancelRestingQuotes_resting _ ev.timestamp s)
      · exact hq.requote hspread hvol hbps hsqrt ev.timestamp
      · exact htrack.congr hslots

end Runs

/-! ## Trades -/

section Trades

open PaperExecutionEngine

variable {F : Type} [Double F] {host : Host F} {p : Pipeline F} {ev : MarketEvent}
  {os : List (OrderId × Order)} {d : Desk}

theorem cancelSide_sublist (p : Pipeline F) (s : BookSide) (now : Timestamp) :
    (p.cancelSide s now).exec.openOrders.Sublist p.exec.openOrders := by
  unfold cancelSide
  cases p.resting s with
  | none => exact List.Sublist.refl _
  | some quote =>
    dsimp only
    rw [setResting_exec]
    show ((p.exec.cancel quote.id now).2.openOrders).Sublist _
    unfold PaperExecutionEngine.cancel
    split
    · exact List.Sublist.refl _
    · exact List.filter_sublist

theorem intake_sublist (p : Pipeline F) (ev : MarketEvent) :
    (p.intake ev).exec.openOrders.Sublist p.exec.openOrders := by
  unfold intake
  split_ifs
  · exact (cancelSide_sublist _ .ask ev.timestamp).trans (cancelSide_sublist (p.track ev) .bid _)
  · exact List.Sublist.refl _

end Trades

/-- A bid and an ask ten cents apart. -/
def tenCents : List Call :=
  [.process (.makeQuote 1 1 (.ofView [65]) .buy (.fromTicks 1000000) 100),
    .process (.makeQuote 1 2 (.ofView [65]) .sell (.fromTicks 1001000) 100)]

end Pipeline

end Lob
