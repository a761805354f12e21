import LobMarketMaker.Pipeline.Delivery
import LobMarketMaker.Pipeline.Health

/-!
# A resync forgets the past

* `process_micro`: the price history after an accepted event;
* `SameView`: two pipelines with the same levels, trackers and price history, whatever their orders
  and positions; `SameView.call`: every common call keeps it;
* `sameView_resync`: an event that both take for a gap or a silence establishes it;
* **`resync_forgets`**.
-/

set_option autoImplicit false

namespace Lob

open Foundation

namespace OrderBook

variable {F : Type} [Double F] {b b' : OrderBook}

theorem midPrice_congr (h : ∀ s, b.levels s = b'.levels s) :
    (b.midPrice : Option F) = b'.midPrice := by
  have hbid : b.bids = b'.bids := h .bid
  have hask : b.asks = b'.asks := h .ask
  unfold midPrice bestBid bestAsk
  rw [hbid, hask]

theorem mem_clear_apply {ev : MarketEvent} {s : BookSide} {lvl : BookLevel}
    (h : lvl ∈ (b.clear.apply ev).levels s) :
    ev.type = .quote ∧ s = ev.side.book ∧ lvl = ⟨ev.price, ev.quantity⟩ := by
  have hb : b.clear.Ordered := fun t => by
    rw [levels_clear]
    exact sorted_nil _ _
  rw [mem_apply hb, levels_clear] at h
  unfold LevelAfter at h
  split_ifs at h with hsnap hw
  · obtain ⟨hq, hqty, -⟩ := h
    exact ⟨hq, hw.2.1.symm, BookLevel.ext hw.2.2.symm hqty.symm⟩
  · cases h

theorem not_quotable_clear_apply (b : OrderBook) (ev : MarketEvent) :
    ¬ (b.clear.apply ev).Quotable := by
  rintro ⟨bb, ba, hbid, hask, -⟩
  obtain ⟨bid, hb, -⟩ := Option.map_eq_some_iff.mp hbid
  obtain ⟨ask, ha, -⟩ := Option.map_eq_some_iff.mp hask
  have hbs := (mem_clear_apply (s := .bid) (List.mem_of_mem_head? hb)).2.1
  have has := (mem_clear_apply (s := .ask) (List.mem_of_mem_head? ha)).2.1
  rw [← hbs] at has
  cases has

end OrderBook

namespace MicrostructureCalculator

variable {F : Type} [Double F]

/-- The same window of returns, of the same length at most, after the same mid price. -/
structure SamePrices (m m' : MicrostructureCalculator F) : Prop where
  volatilityWindow : m'.volatilityWindow = m.volatilityWindow
  lastMid : m'.lastMid = m.lastMid
  returns : m'.returns = m.returns

variable {m m' : MicrostructureCalculator F}

theorem SamePrices.onBookUpdate (h : SamePrices m m') (libm : Libm F) {b b' : OrderBook}
    (hb : (b'.midPrice : Option F) = b.midPrice) :
    SamePrices (m.onBookUpdate libm b) (m'.onBookUpdate libm b') := by
  unfold MicrostructureCalculator.onBookUpdate
  rw [hb, h.lastMid, h.returns, h.volatilityWindow]
  cases (b.midPrice : Option F) with
  | none => exact h
  | some mid =>
    cases m.lastMid with
    | none => exact ⟨rfl, rfl, rfl⟩
    | some last => exact ⟨rfl, rfl, rfl⟩

theorem shortTermVolatility_congr (h : m'.returns = m.returns) (libm : Libm F) :
    m'.shortTermVolatility libm = m.shortTermVolatility libm := by
  unfold shortTermVolatility
  rw [h]

theorem volatilityWindow_onBookUpdate (libm : Libm F) (m : MicrostructureCalculator F)
    (book : OrderBook) : (m.onBookUpdate libm book).volatilityWindow = m.volatilityWindow := by
  unfold onBookUpdate
  cases (book.midPrice : Option F) with
  | none => rfl
  | some mid => cases m.lastMid <;> rfl

end MicrostructureCalculator

namespace Pipeline

open MicrostructureCalculator

variable {F : Type} [Double F] {host host' : Host F} {p q : Pipeline F} {ev : MarketEvent}

/-! ## The price history -/

/-- The windows that an accepted event finds: without prices after a resync. -/
def microFor (p : Pipeline F) (ev : MarketEvent) : MicrostructureCalculator F :=
  if p.gap ev || p.stale ev then p.micro.resetPriceHistory else p.micro

/-- The windows once the event is seen. -/
def microAfter (host : Host F) (p : Pipeline F) (ev : MarketEvent) : MicrostructureCalculator F :=
  let micro := (p.microFor ev).onBookUpdate host.toLibm ((p.bookFor ev).apply ev)
  if ev.type = .trade then micro.onTrade ev.quantity ev.timestamp else micro

theorem intake_micro (p : Pipeline F) (ev : MarketEvent) :
    (p.counted.intake ev).micro = p.microFor ev := by
  have hm := SameMarket.cancelRestingQuotes (p.counted.track ev) ev.timestamp
  unfold intake microFor
  show (if p.gap ev || p.stale ev then _ else _ : Pipeline F).micro = _
  split_ifs
  · exact congrArg resetPriceHistory hm.micro
  · rfl

/-- **The windows after an accepted event.** -/
theorem process_micro (host : Host F) (h : p.outOfOrder ev = false) :
    (p.process host ev).micro = p.microAfter host ev := by
  refine process_rule (A := fun q => q.book = p.bookFor ev ∧ q.micro = p.microFor ev)
    (B := fun q => q.micro = p.microAfter host ev) (C := fun q => q.micro = p.microAfter host ev)
    (D := fun q => q.micro = p.microAfter host ev) ?_ ?_ ?_ h
    ⟨(intake_book p ev).1, intake_micro p ev⟩ ?_ ?_ ?_
  · exact blind_of (fun _ hq => hq) (fun _ hq => hq)
  · exact blind_of (fun _ hq => hq) (fun _ hq => hq)
  · exact blind_of (fun _ hq => hq) (fun _ hq => hq)
  · rintro q ⟨hbook, hmicro⟩
    unfold observe microAfter
    rw [hbook, hmicro]
  · exact fun q hq => (SameFeed.execute host q ev).micro.trans hq
  · exact fun q hq => (SameFeed.settle host q ev).micro.trans hq

theorem onClock_micro (p : Pipeline F) (now : Timestamp) : (p.onClock now).micro = p.micro := by
  rw [onClock_eq]
  split_ifs
  · exact (SameMarket.cancelRestingQuotes p.alarmed now).micro
  · rfl

theorem after_volatilityWindow (host : Host F) (symbol : Symbol) (cfg : PipelineConfig F)
    (calls : List Call) : (after host symbol cfg calls).micro.volatilityWindow = 50 := by
  refine run_invariant (call host) (P := fun p => p.micro.volatilityWindow = 50)
    (fun p c hp => ?_) rfl calls
  cases c with
  | onClock now => exact (congrArg volatilityWindow (onClock_micro p now)).trans hp
  | process ev =>
    show (p.process host ev).micro.volatilityWindow = 50
    cases hd : p.outOfOrder ev with
    | true =>
      rw [process_dropped hd]
      exact hp
    | false =>
      have hfor : (p.microFor ev).volatilityWindow = p.micro.volatilityWindow := by
        unfold microFor
        split_ifs <;> rfl
      have hbook := volatilityWindow_onBookUpdate host.toLibm (p.microFor ev) ((p.bookFor ev).apply ev)
      rw [process_micro host hd, microAfter]
      split_ifs
      · exact (hbook.trans hfor).trans hp
      · exact (hbook.trans hfor).trans hp

/-! ## Two pipelines -/

/-- The same levels, trackers and price history. -/
structure SameView (p q : Pipeline F) : Prop where
  levels : ∀ s, q.book.levels s = p.book.levels s
  lastSequence : q.lastSequence = p.lastSequence
  lastEventTs : q.lastEventTs = p.lastEventTs
  staleThreshold : q.staleThreshold = p.staleThreshold
  prices : SamePrices p.micro q.micro

theorem SameView.outOfOrder (h : SameView p q) (ev : MarketEvent) :
    q.outOfOrder ev = p.outOfOrder ev := by
  unfold Pipeline.outOfOrder
  rw [h.lastSequence]

theorem SameView.resyncs (h : SameView p q) (ev : MarketEvent) :
    (q.gap ev || q.stale ev) = (p.gap ev || p.stale ev) := by
  unfold gap stale
  rw [h.lastSequence, h.lastEventTs, h.staleThreshold]

/-- **What two pipelines see of an event they accept** depends on the book and the windows they
apply it to. -/
theorem sameView_process (hlibm : host'.toLibm = host.toLibm) (hp : p.outOfOrder ev = false)
    (hq : q.outOfOrder ev = false) (hthr : q.staleThreshold = p.staleThreshold)
    (hbook : ∀ s, (q.bookFor ev).levels s = (p.bookFor ev).levels s)
    (hmicro : SamePrices (p.microFor ev) (q.microFor ev)) :
    SameView (p.process host ev) (q.process host' ev) := by
  have hhp := heard_process host hp
  have hhq := heard_process host' hq
  have hlevels : ∀ s, ((q.bookFor ev).apply ev).levels s = ((p.bookFor ev).apply ev).levels s :=
    OrderBook.levels_apply_congr hbook ev
  refine ⟨fun s => ?_, hhq.lastSequence.trans hhp.lastSequence.symm,
    hhq.lastEventTs.trans hhp.lastEventTs.symm,
    (hhq.staleThreshold.trans hthr).trans hhp.staleThreshold.symm, ?_⟩
  · rw [(process_book host' hq).1, (process_book host hp).1]
    exact hlevels s
  · have hupdate := hmicro.onBookUpdate host.toLibm (OrderBook.midPrice_congr (F := F) hlevels)
    rw [process_micro host hp, process_micro host' hq, microAfter, microAfter, hlibm]
    split_ifs
    · exact ⟨hupdate.volatilityWindow, hupdate.lastMid, hupdate.returns⟩
    · exact hupdate

/-- **Step lemma.** Every common call keeps the view the same. -/
theorem SameView.call (h : SameView p q) (hlibm : host'.toLibm = host.toLibm) (c : Call) :
    SameView (p.call host c) (q.call host' c) := by
  cases c with
  | onClock now =>
    have hp := SameTrackers.onClock p now
    have hq := SameTrackers.onClock q now
    have hprices : SamePrices (p.onClock now).micro (q.onClock now).micro := by
      rw [onClock_micro, onClock_micro]
      exact h.prices
    refine ⟨fun s => ?_, ?_, ?_, ?_, hprices⟩
    · show (q.onClock now).book.levels s = (p.onClock now).book.levels s
      rw [hq.book, hp.book]
      exact h.levels s
    · exact (hq.lastSequence.trans h.lastSequence).trans hp.lastSequence.symm
    · exact (hq.lastEventTs.trans h.lastEventTs).trans hp.lastEventTs.symm
    · exact (hq.staleThreshold.trans h.staleThreshold).trans hp.staleThreshold.symm
  | process ev =>
    show SameView (p.process host ev) (q.process host' ev)
    have hd := h.outOfOrder ev
    cases hp : p.outOfOrder ev with
    | true =>
      rw [process_dropped hp, process_dropped (hd.trans hp)]
      exact { h with }
    | false =>
      refine sameView_process hlibm hp (hd.trans hp) h.staleThreshold (fun s => ?_) ?_
      · unfold bookFor
        rw [h.resyncs]
        split_ifs
        · rw [OrderBook.levels_clear, OrderBook.levels_clear]
        · exact h.levels s
      · unfold microFor
        rw [h.resyncs]
        split_ifs
        · exact ⟨h.prices.volatilityWindow, rfl, rfl⟩
        · exact h.prices

/-- **The event that both resync on** makes the view the same. -/
theorem sameView_resync (hlibm : host'.toLibm = host.toLibm) (hp : p.outOfOrder ev = false)
    (hq : q.outOfOrder ev = false) (hthr : q.staleThreshold = p.staleThreshold)
    (hwindow : q.micro.volatilityWindow = p.micro.volatilityWindow)
    (hpr : (p.gap ev || p.stale ev) = true) (hqr : (q.gap ev || q.stale ev) = true) :
    SameView (p.process host ev) (q.process host' ev) := by
  refine sameView_process hlibm hp hq hthr (fun s => ?_) ?_
  · rw [bookFor, bookFor, if_pos hpr, if_pos hqr, OrderBook.levels_clear, OrderBook.levels_clear]
  · rw [microFor, microFor, if_pos hpr, if_pos hqr]
    exact ⟨hwindow, rfl, rfl⟩

/-! ## Right after a resync -/

theorem levels_resync (host : Host F) (hp : p.outOfOrder ev = false)
    (hpr : (p.gap ev || p.stale ev) = true) {s : BookSide} {lvl : BookLevel}
    (h : lvl ∈ (p.process host ev).book.levels s) :
    ev.type = .quote ∧ s = ev.side.book ∧ lvl = ⟨ev.price, ev.quantity⟩ := by
  rw [(process_book host hp).1, bookFor, if_pos hpr] at h
  exact OrderBook.mem_clear_apply h

theorem openOrders_resync (host : Host F) (symbol : Symbol) (cfg : PipelineConfig F)
    (calls : List Call) (hp : (after host symbol cfg calls).outOfOrder ev = false)
    (hpr : ((after host symbol cfg calls).gap ev || (after host symbol cfg calls).stale ev) = true) :
    ((after host symbol cfg calls).process host ev).exec.openOrders = [] := by
  have hnext : after host symbol cfg (calls ++ [.process ev]) =
      (after host symbol cfg calls).process host ev := run_concat _ _ _ _
  obtain ⟨d, hd⟩ := after_shows host symbol cfg (calls ++ [.process ev])
  have hhealthy := after_healthy host symbol cfg (calls ++ [.process ev])
  rw [hnext] at hd hhealthy
  refine hd.eq_nil (hhealthy.guarded.resolve_right ?_)
  rw [(process_book host hp).1, bookFor, if_pos hpr]
  exact OrderBook.not_quotable_clear_apply _ ev

/-- **A resync forgets the past.** Two histories that end in an event which both pipelines accept
and both resync on cannot be told apart from there on by the book, the price history or the events
accepted. -/
theorem resync_forgets (host host' : Host F) (hlibm : host'.toLibm = host.toLibm)
    (symbol : Symbol) (cfg : PipelineConfig F) (calls calls' : List Call) (ev : MarketEvent)
    (hp : (after host symbol cfg calls).outOfOrder ev = false)
    (hq : (after host' symbol cfg calls').outOfOrder ev = false)
    (hpr : ((after host symbol cfg calls).gap ev || (after host symbol cfg calls).stale ev) = true)
    (hqr : ((after host' symbol cfg calls').gap ev || (after host' symbol cfg calls').stale ev) =
      true) :
    let p := (after host symbol cfg calls).process host ev
    let q := (after host' symbol cfg calls').process host' ev
    (p.exec.openOrders = [] ∧ q.exec.openOrders = []) ∧
    (∀ s lvl, lvl ∈ p.book.levels s ∨ lvl ∈ q.book.levels s →
      ev.type = .quote ∧ s = ev.side.book ∧ lvl = ⟨ev.price, ev.quantity⟩) ∧
    ∀ suffix : List Call,
      let p' := run (call host) p suffix
      let q' := run (call host') q suffix
      (∀ ev', p'.outOfOrder ev' = q'.outOfOrder ev') ∧
      (∀ s, p'.book.levels s = q'.book.levels s) ∧
      p'.micro.returns = q'.micro.returns ∧ p'.micro.lastMid = q'.micro.lastMid ∧
      p'.micro.shortTermVolatility host.toLibm = q'.micro.shortTermVolatility host'.toLibm := by
  intro p q
  have hthr : (after host' symbol cfg calls').staleThreshold =
      (after host symbol cfg calls).staleThreshold :=
    (after_trackers host' symbol cfg calls').staleThreshold.trans
      (after_trackers host symbol cfg calls).staleThreshold.symm
  have hwindow := (after_volatilityWindow host' symbol cfg calls').trans
    (after_volatilityWindow host symbol cfg calls).symm
  refine ⟨⟨openOrders_resync host symbol cfg calls hp hpr,
    openOrders_resync host' symbol cfg calls' hq hqr⟩, ?_, fun suffix => ?_⟩
  · rintro s lvl (h | h)
    · exact levels_resync host hp hpr h
    · exact levels_resync host' hq hqr h
  · have hview := run_lockstep (call host) (call host') (R := SameView)
      (fun _ _ c h => h.call hlibm c)
      (sameView_resync hlibm hp hq hthr hwindow hpr hqr) suffix
    refine ⟨fun ev' => (hview.outOfOrder ev').symm, fun s => (hview.levels s).symm,
      hview.prices.returns.symm, hview.prices.lastMid.symm, ?_⟩
    rw [hlibm]
    exact (shortTermVolatility_congr hview.prices.returns host.toLibm).symm

/-- One bid before the gap in the first run, none but a silent clock in the second, and other
draws. -/
theorem resync_forgets_streamBid :
    let p := (after (lowHost ℚ) (Symbol.ofView []) {} [.process (streamBid 1)]).process
      (lowHost ℚ) (streamBid 9)
    let q := (after { lowHost ℚ with draw := fun _ _ hi => hi } (Symbol.ofView []) {}
      [.process (streamBid 3), .onClock 0, .process (streamBid 4)]).process
      { lowHost ℚ with draw := fun _ _ hi => hi } (streamBid 9)
    ∀ suffix s, (run (call (lowHost ℚ)) p suffix).book.levels s =
      (run (call { lowHost ℚ with draw := fun _ _ hi => hi }) q suffix).book.levels s :=
  fun suffix => ((resync_forgets (lowHost ℚ) { lowHost ℚ with draw := fun _ _ hi => hi } rfl
    (Symbol.ofView []) {} [.process (streamBid 1)]
    [.process (streamBid 3), .onClock 0, .process (streamBid 4)] (streamBid 9) (by decide +kernel)
    (by decide +kernel) (by decide +kernel) (by decide +kernel)).2.2 suffix).2.1

end Pipeline

end Lob
