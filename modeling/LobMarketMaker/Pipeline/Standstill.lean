import LobMarketMaker.Pipeline.Hysteresis
import LobMarketMaker.Pipeline.Resync

/-!
# Quoting that changes nothing

* `SameReads`: two pipelines in which quoting reads the same;
* `Stays`: a requote leaves the slot as it is; `kept_requoteSides`, `stays_of_requoteSides`: it
  leaves both as they are exactly if each stays;
* **`settled_iff`**: the same for the end of an event.
-/

set_option autoImplicit false

namespace Lob

open Foundation

namespace Pipeline

open MicrostructureCalculator OrderBook

variable {F : Type} [Double F] {host : Host F} {p q r : Pipeline F} {ev : MarketEvent}
  {s : BookSide} {qd : QuoteDecision} {ref : F} {ticks : ℤ} {now : Timestamp}

/-! ## A requote that changes nothing -/

/-- A requote leaves the slot as it is: what rests is still quoted and good enough, and for an empty
slot there is no quote or the risk check does not let it through. -/
def Stays (p : Pipeline F) (s : BookSide) (qd : QuoteDecision) (ref : F) (ticks : ℤ) : Prop :=
  match p.resting s with
  | none => qd.quote s = true → (p.riskRecord s (qd.size s) ref).decision ≠ .approved
  | some quote =>
    qd.quote s = true ∧ needsReplace (some quote) (qd.price s) (qd.size s) ticks = false

instance (p : Pipeline F) (s : BookSide) (qd : QuoteDecision) (ref : F) (ticks : ℤ) :
    Decidable (p.Stays s qd ref ticks) :=
  match h : p.resting s with
  | none =>
    decidable_of_iff (qd.quote s = true → (p.riskRecord s (qd.size s) ref).decision ≠ .approved)
      (by rw [Stays, h])
  | some quote =>
    decidable_of_iff (qd.quote s = true ∧
      needsReplace (some quote) (qd.price s) (qd.size s) ticks = false) (by rw [Stays, h])

/-- The market, the orders and the slots are the same. -/
structure Kept (p q : Pipeline F) : Prop extends SameMarket p q where
  exec : q.exec = p.exec
  nextOrderId : q.nextOrderId = p.nextOrderId
  resting : ∀ s, q.resting s = p.resting s

theorem Kept.refl (p : Pipeline F) : Kept p p := ⟨.refl p, rfl, rfl, fun _ => rfl⟩

theorem Kept.trans (h : Kept p q) (h' : Kept q r) : Kept p r :=
  ⟨h.toSameMarket.trans h'.toSameMarket, h'.exec.trans h.exec,
    h'.nextOrderId.trans h.nextOrderId, fun s => (h'.resting s).trans (h.resting s)⟩

/-- Quoting reads the same. -/
structure SameReads (p q : Pipeline F) : Prop where
  levels : ∀ s, q.book.levels s = p.book.levels s
  lastUpdate : q.book.lastUpdate = p.book.lastUpdate
  returns : q.micro.returns = p.micro.returns
  risk : q.risk = p.risk
  strategy : q.strategy = p.strategy
  requoteThresholdBps : q.requoteThresholdBps = p.requoteThresholdBps
  marketDataStale : q.marketDataStale = p.marketDataStale
  portfolio : q.portfolio = p.portfolio
  openOrders : q.exec.openOrders = p.exec.openOrders
  resting : ∀ s, q.resting s = p.resting s

theorem Kept.sameReads (h : Kept p q) : SameReads p q where
  levels := by rw [h.book]; exact fun _ => rfl
  lastUpdate := by rw [h.book]
  returns := by rw [h.micro]
  risk := h.risk
  strategy := h.strategy
  requoteThresholdBps := h.requoteThresholdBps
  marketDataStale := h.marketDataStale
  portfolio := h.portfolio
  openOrders := by rw [h.exec]
  resting := h.resting

namespace SameReads

theorem decision (h : SameReads p q) (host : Host F) (now : Timestamp) :
    q.decision host now = p.decision host now := by
  have hvol := shortTermVolatility_congr h.returns host.toLibm
  unfold Pipeline.decision StrategyConfig.decide StrategyConfig.halfSpreadDollars
  rw [midPrice_congr h.levels, h.lastUpdate, h.strategy, h.portfolio, hvol]

theorem referencePrice (h : SameReads p q) : q.referencePrice = p.referencePrice := by
  unfold Pipeline.referencePrice
  rw [midPrice_congr h.levels]

theorem thresholdTicks (h : SameReads p q) (ref : F) :
    q.thresholdTicks ref = p.thresholdTicks ref := by
  unfold Pipeline.thresholdTicks
  rw [h.requoteThresholdBps]

theorem crossed (h : SameReads p q) : q.book.crossed = p.book.crossed := by
  have hbid : q.book.bids = p.book.bids := h.levels .bid
  have hask : q.book.asks = p.book.asks := h.levels .ask
  unfold OrderBook.crossed bestBid bestAsk
  rw [hbid, hask]

theorem riskRecord (h : SameReads p q) (s : BookSide) (size : Quantity) (ref : F) :
    (q.riskRecord s size ref).decision = (p.riskRecord s size ref).decision := by
  unfold Pipeline.riskRecord PaperExecutionEngine.openOrderCount
  dsimp only
  rw [h.risk, h.portfolio, h.openOrders, h.marketDataStale]

theorem stays (h : SameReads p q) : q.Stays s qd ref ticks ↔ p.Stays s qd ref ticks := by
  unfold Stays
  rw [h.resting, h.riskRecord]

end SameReads

theorem cancelSide_of_none (h : p.resting s = none) : p.cancelSide s now = p := by
  unfold cancelSide
  rw [h]

theorem cancelSide_nextOrderId (p : Pipeline F) (s : BookSide) (now : Timestamp) :
    (p.cancelSide s now).nextOrderId = p.nextOrderId := by
  unfold cancelSide
  split
  · rfl
  · rw [setResting_nextOrderId]

theorem cancelRestingQuotes_of_idle (now : Timestamp) (h : p.Idle) :
    p.cancelRestingQuotes now = p := by
  unfold cancelRestingQuotes
  rw [cancelSide_of_none (h .bid), cancelSide_of_none (h .ask)]

theorem withdraw_eq_self (h : qd.quote s = false → p.resting s = none) :
    p.withdraw s qd now = p := by
  unfold withdraw
  split_ifs with hq
  · rfl
  · exact cancelSide_of_none (h (Bool.not_eq_true _ ▸ hq))

theorem Kept.replace (host : Host F) (now : Timestamp) (h : p.Stays s qd ref ticks) :
    Kept p (p.replace host s qd ref ticks now) := by
  unfold Stays at h
  unfold Pipeline.replace
  cases hs : p.resting s with
  | some quote =>
    rw [hs] at h
    rw [h.2, Bool.and_false, if_neg Bool.false_ne_true]
    exact .refl p
  | none =>
    rw [hs] at h
    split_ifs with hc
    · have hreject := h (Bool.and_eq_true_iff.mp hc).1
      rw [cancelSide_of_none hs]
      refine ⟨SameMarket.submit host p s _ _ _ _, ?_, ?_, fun t => ?_⟩ <;> unfold submit <;>
        dsimp only <;> rw [if_pos hreject]
      cases t <;> rfl
    · exact .refl p

theorem replace_resting_ne {quote : RestingQuote} (hid : quote.id < p.nextOrderId)
    (hs : p.resting s = some quote) (hq : qd.quote s = true)
    (hn : needsReplace (some quote) (qd.price s) (qd.size s) ticks = true) :
    (p.replace host s qd ref ticks now).resting s ≠ some quote := by
  unfold Pipeline.replace
  rw [hs, hq, hn, if_pos (by rfl)]
  intro h
  rcases submit_self host (p.cancelSide s now) s (qd.price s) (qd.size s) ref now with hnew | hnew
  · rw [hnew, cancelSide_self] at h
    cases h
  · rw [hnew, cancelSide_nextOrderId] at h
    cases h
    exact lt_irrefl _ hid

theorem rejected_of_replace (hs : p.resting s = none) (hq : qd.quote s = true)
    (h : (p.replace host s qd ref ticks now).resting s = none) :
    (p.riskRecord s (qd.size s) ref).decision ≠ .approved := by
  intro happ
  unfold Pipeline.replace at h
  rw [hs, hq, if_pos (by rfl), cancelSide_of_none hs] at h
  unfold submit at h
  dsimp only at h
  rw [if_neg (not_not.mpr happ), resting_setResting_self] at h
  cases h

/-- **Whoever keeps the slot** leaves it as it is. -/
theorem stays_of_replace (hids : ∀ quote, p.resting s = some quote → quote.id < p.nextOrderId)
    (hquote : qd.quote s = false → p.resting s = none)
    (h : (p.replace host s qd ref ticks now).resting s = p.resting s) : p.Stays s qd ref ticks := by
  unfold Stays
  cases hs : p.resting s with
  | none =>
    rw [hs] at h
    exact fun hq => rejected_of_replace hs hq h
  | some quote =>
    rw [hs] at h
    have hq : qd.quote s = true := by
      by_contra hq
      exact nomatch (hquote (Bool.eq_false_iff.mpr hq)).symm.trans hs
    exact ⟨hq, Bool.eq_false_iff.mpr fun hn => replace_resting_ne (hids quote hs) hs hq hn h⟩

theorem Stays.resting_eq_none (h : p.Stays s qd ref ticks) (hq : qd.quote s = false) :
    p.resting s = none := by
  unfold Stays at h
  cases hs : p.resting s with
  | none => rfl
  | some quote =>
    rw [hs] at h
    exact nomatch hq.symm.trans h.1

/-- **A requote** in which both slots stay keeps everything. -/
theorem kept_requoteSides (h : ∀ s, p.Stays s (p.decision host now) p.referencePrice
    (p.thresholdTicks p.referencePrice)) : Kept p (p.requoteSides host now) := by
  have hwithdraw (s : BookSide) : p.withdraw s (p.decision host now) now = p :=
    withdraw_eq_self (h s).resting_eq_none
  unfold requoteSides
  dsimp only
  rw [hwithdraw, hwithdraw]
  have hbid := Kept.replace host now (h .bid)
  exact hbid.trans (.replace host now (hbid.sameReads.stays.mpr (h .ask)))

/-- **A requote** that keeps the slots leaves both as they are. -/
theorem stays_of_requoteSides
    (hids : ∀ s quote, p.resting s = some quote → quote.id < p.nextOrderId)
    (h : ∀ s, (p.requoteSides host now).resting s = p.resting s) (s : BookSide) :
    p.Stays s (p.decision host now) p.referencePrice (p.thresholdTicks p.referencePrice) := by
  have hquote (s : BookSide) : (p.decision host now).quote s = false → p.resting s = none :=
    fun hq => (h s).symm.trans (requoteSides_resting hq)
  have hsides : p.requoteSides host now = (p.replace host .bid (p.decision host now)
      p.referencePrice (p.thresholdTicks p.referencePrice) now).replace host .ask
      (p.decision host now) p.referencePrice (p.thresholdTicks p.referencePrice) now := by
    unfold requoteSides
    dsimp only
    rw [withdraw_eq_self (hquote .bid), withdraw_eq_self (hquote .ask)]
    rfl
  rw [hsides] at h
  have hbid := stays_of_replace (hids .bid) (hquote .bid)
    ((replace_other host _ .ask _ _ _ now).symm.trans (h .bid))
  -- the ask side meets the pipeline that the bid side has left as it was
  have hkept := Kept.replace host now hbid
  cases s with
  | bid => exact hbid
  | ask =>
    have hask := (h .ask).trans (hkept.resting .ask).symm
    refine hkept.sameReads.stays.mp (stays_of_replace (fun quote hs => ?_) (fun hq => ?_) hask)
    · rw [hkept.nextOrderId]
      exact hids .ask quote ((hkept.resting .ask).symm.trans hs)
    · exact (hkept.resting .ask).trans (hquote .ask hq)

/-- The requote at the end of an event changes nothing. -/
def Settled (host : Host F) (p : Pipeline F) (ev : MarketEvent) : Prop :=
  bookChanged ev = true → p.book.crossed = false → ∀ s, p.Stays s (p.decision host ev.timestamp)
    p.referencePrice (p.thresholdTicks p.referencePrice)

theorem SameReads.settled (h : SameReads p q) (host : Host F) (ev : MarketEvent) :
    Settled host q ev ↔ Settled host p ev := by
  unfold Settled
  rw [h.crossed, h.decision, h.referencePrice, h.thresholdTicks]
  exact forall_congr' fun _ => forall_congr' fun _ => forall_congr' fun _ => h.stays

/-- **Quoting keeps the slots and the orders** exactly if the requote changes nothing. -/
theorem settled_iff (hidle : p.book.crossed = true → p.Idle)
    (hids : ∀ s quote, p.resting s = some quote → quote.id < p.nextOrderId) :
    ((∀ s, (p.settle host ev).resting s = p.resting s) ∧
      (p.settle host ev).exec.openOrders = p.exec.openOrders) ↔ Settled host p ev := by
  unfold Settled settle
  split_ifs with hc hb
  · refine iff_of_true ?_ fun _ hc' => nomatch hc.symm.trans hc'
    have hcancel := cancelRestingQuotes_of_idle ev.timestamp (p := { p with
      stats := { p.stats with crossedBookEvents := p.stats.crossedBookEvents + 1 } })
      ((hidle hc).congr rfl rfl)
    rw [hcancel]
    exact ⟨fun s => by cases s <;> rfl, rfl⟩
  · have hsides (s : BookSide) : (p.requote host ev.timestamp).resting s =
        ((p.readClock host).2.requoteSides host ev.timestamp).resting s := by cases s <;> rfl
    have hslots (s : BookSide) : (p.readClock host).2.resting s = p.resting s := by
      cases s <;> rfl
    constructor
    · rintro ⟨hkeep, -⟩ - - s
      refine (stays_of_requoteSides (p := (p.readClock host).2) hids ?_) s
      exact fun s => (hsides s).symm.trans ((hkeep s).trans (hslots s).symm)
    · intro h
      have hkept : Kept (p.readClock host).2
          ((p.readClock host).2.requoteSides host ev.timestamp) :=
        kept_requoteSides (h hb (Bool.eq_false_iff.mpr hc))
      exact ⟨fun s => (hsides s).trans ((hkept.resting s).trans (hslots s)),
        congrArg PaperExecutionEngine.openOrders hkept.exec⟩
  · exact iff_of_true ⟨fun _ => rfl, rfl⟩ fun hb' => absurd hb' hb

end Pipeline

end Lob
