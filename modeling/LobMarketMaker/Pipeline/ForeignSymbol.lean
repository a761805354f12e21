import LobMarketMaker.Foundation.Binary64
import LobMarketMaker.Metrics.Windows
import LobMarketMaker.OrderBook.Repeats
import LobMarketMaker.Pipeline.Standstill

/-!
# Events of another symbol

Only the execution engine compares symbols. The book, the windows, the mark and the quotes take
whatever arrives.

* `Steady`: the last mid price seen and the mark are those of the book;
* `kept_unsettled`: what an event that hits no order has done when quoting begins;
* `Redundant`: the event tells the pipeline nothing new;
* **`foreign_symbol`**: an event of another symbol leaves the state as it was exactly if it is
  redundant.
-/

set_option autoImplicit false

namespace Lob

open Foundation

namespace Pipeline

open MicrostructureCalculator OrderBook

variable {F : Type} [Double F] {host : Host F} {p q r : Pipeline F} {ev : MarketEvent}

/-! ## What the book, the windows and the mark agree on -/

/-- A mark at the current mid price changes nothing. -/
def AtMid (p : Pipeline F) : Prop :=
  ∀ mid : F, p.book.midPrice = some mid → p.portfolio.markToMarket mid = p.portfolio

theorem atMid_mark (p : Pipeline F) : p.mark.AtMid := by
  intro mid hmid
  unfold mark at hmid ⊢
  cases hm : (p.book.midPrice : Option F) with
  | none =>
    rw [hm] at hmid
    cases hm.symm.trans hmid
  | some mid' =>
    rw [hm] at hmid
    cases hm.symm.trans hmid
    rfl

theorem AtMid.congr (h : p.AtMid) (hq : SameMarket p q) : q.AtMid := by
  unfold AtMid
  rw [hq.book, hq.portfolio]
  exact h

/-- The book is sorted and the symbol's; its mid price is the last one seen, and the mark. -/
structure Steady (symbol : Symbol) (p : Pipeline F) : Prop where
  ordered : p.book.Ordered
  symbol : p.book.symbol = symbol
  lastMid : ∀ mid : F, p.book.midPrice = some mid → p.micro.lastMid = some mid
  marked : p.AtMid

variable {symbol : Symbol}

theorem Steady.congr (h : Steady symbol p) (hq : SameMarket p q) : Steady symbol q where
  ordered := hq.book ▸ h.ordered
  symbol := hq.book ▸ h.symbol
  lastMid := by
    rw [hq.book, hq.micro]
    exact h.lastMid
  marked := h.marked.congr hq

/-- **Every accepted event** leaves the last mid price seen and the mark at the mid price. -/
theorem Steady.process (h : Steady symbol p) (host : Host F) (hd : p.outOfOrder ev = false) :
    Steady symbol (p.process host ev) := by
  have hfor : (p.bookFor ev).symbol = symbol := by
    unfold bookFor
    split_ifs
    · exact h.symbol
    · exact h.symbol
  have hb := (process_book host hd).1
  refine ⟨?_, ?_, fun mid hmid => ?_, ?_⟩
  · rw [hb]
    exact (bookFor_ordered h.ordered ev).apply ev
  · rw [hb, apply_symbol]
    exact hfor
  · rw [hb] at hmid
    rw [process_micro host hd, microAfter]
    split_ifs
    · exact lastMid_onBookUpdate hmid
    · exact lastMid_onBookUpdate hmid
  · have hblind : Blind (AtMid (F := F)) := blind_of (fun _ h => h) (fun _ h => h)
    refine process_rule (A := fun _ => True) (B := fun _ => True) (fun _ _ _ _ => trivial)
      (fun _ _ _ _ => trivial) hblind hd trivial (fun _ _ => trivial) (fun q _ => ?_)
      (fun q hq => ?_)
    · exact atMid_mark (q.takeFills host ev)
    · exact hq.congr (SameMarket.settle host q ev)

/-- **Run lemma.** -/
theorem after_steady (host : Host F) (symbol : Symbol) (cfg : PipelineConfig F)
    (calls : List Call) : Steady symbol (after host symbol cfg calls) := by
  refine run_invariant (call host) (fun p c h => ?_) ?_ calls
  · cases c with
    | process ev =>
      show Steady symbol (p.process host ev)
      cases hd : p.outOfOrder ev with
      | true =>
        rw [process_dropped hd]
        exact { h with }
      | false => exact h.process host hd
    | onClock now =>
      show Steady symbol (p.onClock now)
      rw [onClock_eq]
      split_ifs
      · have ha : Steady symbol p.alarmed := { h with }
        exact ha.congr (SameMarket.cancelRestingQuotes p.alarmed now)
      · exact h
  · exact ⟨ordered_new symbol, rfl, nofun, nofun⟩

/-! ## An event that meets no order of its symbol -/

theorem Kept.observe (h : Kept p q) (host : Host F) (ev : MarketEvent) :
    Kept (p.observe host ev) (q.observe host ev) := by
  have hbook : (q.observe host ev).book = (p.observe host ev).book :=
    congrArg (·.apply ev) h.book
  have hmicro : (q.observe host ev).micro = (p.observe host ev).micro := by
    unfold Pipeline.observe
    dsimp only
    rw [h.book, h.micro]
  exact { h with book := hbook, micro := hmicro }

theorem Kept.mark (h : Kept p q) : Kept p.mark q.mark := by
  have hmid : (q.book.midPrice : Option F) = p.book.midPrice := by rw [h.book]
  unfold Pipeline.mark
  rw [hmid]
  split
  · exact { h with portfolio := by rw [h.portfolio] }
  · exact h

/-- **Before quoting** an event that hits no order changes the book, the windows and the mark. -/
theorem kept_unsettled (host : Host F) (hgap : p.gap ev = false) (hstale : p.stale ev = false)
    (h : ∀ x ∈ p.exec.openOrders, ¬ PaperExecutionEngine.Hits x.2 ev) :
    Kept ((p.track ev).observe host ev).mark (p.counted.unsettled host ev) := by
  have hblind (r : Pipeline F) : Blind (Kept r) :=
    blind_of (fun _ h => { h with }) (fun _ h => { h with })
  have hintake : p.counted.intake ev = p.counted.track ev := by
    refine if_neg ?_
    show ¬ (p.gap ev || p.stale ev) = true
    rw [hgap, hstale]
    exact Bool.false_ne_true
  refine unsettled_rule (hblind (p.track ev)) (hblind ((p.track ev).observe host ev)) (hblind _)
    ?_ (fun q hq => hq.observe host ev) (fun q hq => ?_)
  · rw [hintake]
    exact ⟨⟨⟨rfl, rfl, rfl, rfl, rfl, rfl, rfl, rfl, rfl, rfl⟩, rfl⟩, rfl, rfl,
      fun s => by cases s <;> rfl⟩
  · have hits : ∀ x ∈ q.exec.openOrders, ¬ PaperExecutionEngine.Hits x.2 ev := by
      rw [hq.exec]
      exact h
    unfold execute
    rw [takeFills_of_not_hits host hits]
    exact hq.mark

/-! ## Events of another symbol -/

/-- The state of the symbol: levels and last trade, quotes and orders, position and profits, windows
of returns and trades. -/
structure Undisturbed (p q : Pipeline F) : Prop where
  book : SameBook p.book q.book
  resting : ∀ s, q.resting s = p.resting s
  openOrders : q.exec.openOrders = p.exec.openOrders
  portfolio : q.portfolio = p.portfolio
  returns : q.micro.returns = p.micro.returns
  trades : q.micro.trades = p.micro.trades

theorem Undisturbed.refl (p : Pipeline F) : Undisturbed p p :=
  ⟨⟨fun _ => rfl, rfl⟩, fun _ => rfl, rfl, rfl, rfl, rfl⟩

theorem Undisturbed.trans (h : Undisturbed p q) (h' : Undisturbed q r) : Undisturbed p r where
  book := ⟨fun s => (h'.book.levels s).trans (h.book.levels s),
    h'.book.lastTrade.trans h.book.lastTrade⟩
  resting s := (h'.resting s).trans (h.resting s)
  openOrders := h'.openOrders.trans h.openOrders
  portfolio := h'.portfolio.trans h.portfolio
  returns := h'.returns.trans h.returns
  trades := h'.trades.trans h.trades

/-- The event is of another symbol, and arrives in sequence and in time. -/
structure Foreign (symbol : Symbol) (p : Pipeline F) (ev : MarketEvent) : Prop where
  symbol : ev.symbol ≠ symbol
  outOfOrder : p.outOfOrder ev = false
  gap : p.gap ev = false
  stale : p.stale ev = false

/-- The pipeline that has only noted that the event came. -/
def noted (p : Pipeline F) (ev : MarketEvent) : Pipeline F :=
  { p.track ev with book := p.book.stamp ev }

/-- The event repeats what the book shows; if there is a mid price, the window of returns is full of
the return of an unmoved price; a trade is like all those that fill the window of trades; and the
requote changes nothing. -/
structure Redundant (host : Host F) (p : Pipeline F) (ev : MarketEvent) : Prop where
  repeats : p.book.Repeats ev
  returns : ∀ mid : F, p.book.midPrice = some mid →
    p.micro.volatilityWindow ≤ p.micro.returns.length ∧
      ∀ r ∈ p.micro.returns, r = host.log (mid / mid)
  trades : ev.type = .trade →
    p.micro.trades.length = p.micro.tradeWindow ∧
      ∀ t ∈ p.micro.trades, t = ⟨ev.quantity, ev.timestamp⟩
  settled : Settled host (p.noted ev) ev

theorem returns_observe_iff (h : Steady symbol p) (hsame : SameBook p.book (p.book.apply ev)) :
    (p.observe host ev).micro.returns = p.micro.returns ↔
      ∀ mid : F, p.book.midPrice = some mid →
        p.micro.volatilityWindow ≤ p.micro.returns.length ∧
          ∀ r ∈ p.micro.returns, r = host.log (mid / mid) := by
  have hmid : ((p.book.apply ev).midPrice : Option F) = p.book.midPrice :=
    midPrice_congr hsame.levels
  have hreturns : (p.observe host ev).micro.returns =
      (p.micro.onBookUpdate host.toLibm (p.book.apply ev)).returns := by
    unfold observe
    dsimp only
    split_ifs <;> rfl
  have hlast : ∀ mid : F, (p.book.apply ev).midPrice = some mid → p.micro.lastMid = some mid := by
    rw [hmid]
    exact h.lastMid
  rw [hreturns, returns_onBookUpdate_iff hlast, hmid]

theorem trades_observe_iff : (p.observe host ev).micro.trades = p.micro.trades ↔
    (ev.type = .trade → p.micro.trades.length = p.micro.tradeWindow ∧
      ∀ t ∈ p.micro.trades, t = ⟨ev.quantity, ev.timestamp⟩) := by
  have hbook : (p.micro.onBookUpdate host.toLibm (p.book.apply ev)).trades = p.micro.trades ∧
      (p.micro.onBookUpdate host.toLibm (p.book.apply ev)).tradeWindow = p.micro.tradeWindow :=
    trades_onBookUpdate
  unfold observe
  dsimp only
  split_ifs with ht
  · rw [← hbook.1, trades_onTrade_iff, hbook.1, hbook.2]
    exact ⟨fun h _ => h, fun h => h ht⟩
  · exact ⟨fun _ ht' => absurd ht' ht, fun _ => hbook.1⟩

theorem portfolio_mark (h : Steady symbol p) (hsame : SameBook p.book (p.book.apply ev)) :
    ((p.track ev).observe host ev).mark.portfolio = p.portfolio := by
  have hmid : (((p.track ev).observe host ev).book.midPrice : Option F) = p.book.midPrice :=
    midPrice_congr hsame.levels
  unfold mark
  rw [hmid]
  cases hm : (p.book.midPrice : Option F) with
  | none => rfl
  | some mid => exact h.marked mid hm

theorem kept_mark (p : Pipeline F) : Kept { p with portfolio := p.mark.portfolio } p.mark := by
  unfold mark
  split
  · exact .refl _
  · exact .refl _

/-- **After an event that repeats the book** quoting keeps the slots and the orders exactly if it
would have before. -/
theorem settled_noted_iff {d : Desk} (hp : Steady symbol p) (hhealthy : p.Healthy)
    (hshows : Shows p p.exec.openOrders d) (hsame : SameBook p.book (p.book.apply ev))
    (hreturns : (p.observe host ev).micro.returns = p.micro.returns)
    (hq : Kept ((p.track ev).observe host ev).mark q) :
    ((∀ s, (q.settle host ev).resting s = p.resting s) ∧
      (q.settle host ev).exec.openOrders = p.exec.openOrders) ↔ Settled host (p.noted ev) ev := by
  have hm := (kept_mark ((p.track ev).observe host ev)).trans hq
  have hreads : SameReads (p.noted ev) q :=
    { levels := by rw [hm.book]; exact hsame.levels
      lastUpdate := by rw [hm.book]; exact lastUpdate_apply p.book ev
      returns := by rw [hm.micro]; exact hreturns
      risk := hm.risk
      strategy := hm.strategy
      requoteThresholdBps := hm.requoteThresholdBps
      marketDataStale := hm.marketDataStale
      portfolio := by rw [hm.portfolio]; exact portfolio_mark hp hsame
      openOrders := congrArg PaperExecutionEngine.openOrders hm.exec
      resting := fun s => (hm.resting s).trans (by cases s <;> rfl) }
  have hresting (s : BookSide) : q.resting s = p.resting s :=
    (hreads.resting s).trans (by cases s <;> rfl)
  have hopen : q.exec.openOrders = p.exec.openOrders := hreads.openOrders
  have hidle : q.book.crossed = true → q.Idle := by
    intro hc s
    have hcrossed : p.book.crossed = true := hreads.crossed.symm.trans hc
    rw [hresting]
    exact (hhealthy.resolve_right fun hh => nomatch hcrossed.symm.trans hh.1.crossed) s
  have hids : ∀ s quote, q.resting s = some quote → quote.id < q.nextOrderId := by
    intro s quote hs
    rw [hresting, hshows.slots] at hs
    obtain ⟨o, ho, rfl⟩ := Option.map_eq_some_iff.mp hs
    rw [hm.nextOrderId]
    exact hshows.ids_lt s o ho
  rw [← hreads.settled host ev, ← settled_iff hidle hids, hopen]
  exact and_congr_left fun _ => forall_congr' fun s => by rw [hresting]

/-- **An event of another symbol** leaves the state as it was exactly if it is redundant. -/
theorem undisturbed_iff {d : Desk} (host : Host F) (hp : Steady symbol p) (hhealthy : p.Healthy)
    (hshows : Shows p p.exec.openOrders d) (hev : Foreign symbol p ev) :
    Undisturbed p (p.process host ev) ↔ Redundant host p ev := by
  have hhits : ∀ x ∈ p.exec.openOrders, ¬ PaperExecutionEngine.Hits x.2 ev := by
    rintro x hx ⟨hview, -⟩
    obtain ⟨s, o, ho, rfl⟩ := Desk.mem_entries.mp (hshows.entries.mem_iff.mp hx)
    refine hev.symbol (Symbol.ext ?_)
    rw [← hp.symbol, ← hshows.symbols s o ho]
    exact hview.symm
  have hq := kept_unsettled host hev.gap hev.stale hhits
  have hm := (kept_mark ((p.track ev).observe host ev)).toSameMarket.trans
    (hq.toSameMarket.trans (SameMarket.settle host _ ev))
  have hsettled := fun hsame hreturns =>
    settled_noted_iff hp hhealthy hshows hsame hreturns hq
  rw [process_accepted hev.outOfOrder]
  generalize (p.counted.unsettled host ev).settle host ev = r at hm hsettled ⊢
  have hbook : r.book = p.book.apply ev := hm.book
  have hmicro : r.micro = (p.observe host ev).micro := hm.micro
  constructor
  · rintro ⟨hsame, hresting, hopen, -, hreturns, htrades⟩
    rw [hbook] at hsame
    rw [hmicro] at hreturns htrades
    exact ⟨(sameBook_apply_iff hp.ordered ev).mp hsame, (returns_observe_iff hp hsame).mp hreturns,
      trades_observe_iff.mp htrades, (hsettled hsame hreturns).mp ⟨hresting, hopen⟩⟩
  · rintro ⟨hrepeats, hreturns, htrades, hset⟩
    have hsame := (sameBook_apply_iff hp.ordered ev).mpr hrepeats
    have hreturns' : (p.observe host ev).micro.returns = p.micro.returns :=
      (returns_observe_iff hp hsame).mpr hreturns
    obtain ⟨hresting, hopen⟩ := (hsettled hsame hreturns').mpr hset
    refine ⟨hbook ▸ hsame, hresting, hopen, ?_, ?_, ?_⟩
    · exact hm.portfolio.trans (portfolio_mark hp hsame)
    · rw [hmicro]
      exact hreturns'
    · rw [hmicro]
      exact trades_observe_iff.mpr htrades

/-- **One symbol, one pipeline?** Only the execution engine compares symbols. In every reachable
state an event of another symbol that arrives in sequence and in time leaves the state as it was
exactly if it is redundant, and so does a run of such events. -/
theorem foreign_symbol (host : Host F) (symbol : Symbol) (cfg : PipelineConfig F)
    (calls : List Call) :
    let p := after host symbol cfg calls
    (∀ ev, Foreign symbol p ev → (Undisturbed p (p.process host ev) ↔ Redundant host p ev)) ∧
    ∀ evs : List MarketEvent,
      (∀ pre ev post, evs = pre ++ ev :: post →
        let q := after host symbol cfg (calls ++ pre.map .process)
        Foreign symbol q ev ∧ Redundant host q ev) →
      Undisturbed p (after host symbol cfg (calls ++ evs.map .process)) := by
  have hstep (calls : List Call) (ev : MarketEvent)
      (hev : Foreign symbol (after host symbol cfg calls) ev) :
      Undisturbed (after host symbol cfg calls) ((after host symbol cfg calls).process host ev) ↔
        Redundant host (after host symbol cfg calls) ev := by
    obtain ⟨d, hshows⟩ := after_shows host symbol cfg calls
    exact undisturbed_iff host (after_steady host symbol cfg calls)
      (after_healthy host symbol cfg calls) hshows hev
  refine ⟨hstep calls, fun evs => ?_⟩
  induction evs using List.reverseRecOn with
  | nil =>
    rw [List.map_nil, List.append_nil]
    exact fun _ => .refl _
  | append_singleton evs ev ih =>
    intro h
    obtain ⟨hev, hred⟩ := h evs ev [] rfl
    have hbefore := ih fun pre e post he =>
      h pre e (post ++ [ev]) (by rw [he, List.append_assoc]; rfl)
    have hlast := (hstep _ ev hev).mpr hred
    rw [List.map_append, ← List.append_assoc]
    unfold after at hlast ⊢
    rw [List.map_singleton, run_concat]
    exact hbefore.trans hlast

/-- Two quotes and as many equal trades as the window of trades holds. -/
def quietTape : List Call :=
  tenCents ++ (List.range' 3 200).map fun seq =>
    .process (.makeTrade 2 seq (.ofView [65]) .buy (.fromTicks 1000500) 5)

/-- The best bid once more, under another symbol. -/
def foreignBid : MarketEvent := .makeQuote 3 203 (.ofView [66]) .buy (.fromTicks 1000000) 100

/-- The last trade once more, likewise. -/
def foreignTrade : MarketEvent := .makeTrade 2 204 (.ofView [66]) .buy (.fromTicks 1000500) 5

theorem foreign_symbol_repeated :
    let p := after (lowHost ℚ) (.ofView [65]) {} quietTape
    p.book.midPrice = some (2001 / 20 : ℚ) ∧ (∀ s, (p.resting s).isSome = true) ∧
      Undisturbed p (after (lowHost ℚ) (.ofView [65]) {}
        (quietTape ++ [foreignBid, foreignTrade].map .process)) := by
  obtain ⟨hslots, ⟨hbid, hbid'⟩, hmid, hlevel, hfull, hzero, hstays⟩ :
      let p := after (lowHost ℚ) (.ofView [65]) {} quietTape
      let q := p.noted foreignBid
      (p.restingBid.isSome = true ∧ p.restingAsk.isSome = true) ∧
        ((p.outOfOrder foreignBid = false ∧ p.gap foreignBid = false) ∧
          p.stale foreignBid = false) ∧
        p.book.midPrice = some (2001 / 20 : ℚ) ∧
        (⟨⟨1000000⟩, 100⟩ : BookLevel) ∈ p.book.levels .bid ∧
        p.micro.volatilityWindow ≤ p.micro.returns.length ∧ (∀ r ∈ p.micro.returns, r = 0) ∧
        ∀ s ∈ [BookSide.bid, .ask], q.Stays s (q.decision (lowHost ℚ) foreignBid.timestamp)
          q.referencePrice (q.thresholdTicks q.referencePrice) := by
    decide +kernel
  obtain ⟨⟨htrade, htrade'⟩, hlast, hfull₁, hzero₁, hwindow, hequal⟩ :
      let p := after (lowHost ℚ) (.ofView [65]) {} (quietTape ++ [.process foreignBid])
      ((p.outOfOrder foreignTrade = false ∧ p.gap foreignTrade = false) ∧
          p.stale foreignTrade = false) ∧
        p.book.lastTrade = (some foreignTrade.price, some foreignTrade.quantity,
          some foreignTrade.timestamp) ∧
        p.micro.volatilityWindow ≤ p.micro.returns.length ∧ (∀ r ∈ p.micro.returns, r = 0) ∧
        p.micro.trades.length = p.micro.tradeWindow ∧
        ∀ t ∈ p.micro.trades, t = ⟨foreignTrade.quantity, foreignTrade.timestamp⟩ := by
    decide +kernel
  refine ⟨hmid, fun s => ?_, ?_⟩
  · cases s
    · exact hslots.1
    · exact hslots.2
  refine (foreign_symbol (lowHost ℚ) (.ofView [65]) {} quietTape).2 [foreignBid, foreignTrade] ?_
  intro pre ev post h
  rcases pre with _ | ⟨e, _ | ⟨e', pre⟩⟩
  · cases h
    rw [List.map_nil, List.append_nil]
    refine ⟨⟨by decide, hbid.1, hbid.2, hbid'⟩, hlevel,
      fun _ _ => ⟨hfull, fun r hr => (hzero r hr).trans Int.cast_zero.symm⟩, nofun, ?_⟩
    intro _ _ s
    have hmem : s ∈ [BookSide.bid, .ask] := by cases s <;> decide
    exact hstays s hmem
  · cases h
    rw [List.map_singleton]
    exact ⟨⟨by decide, htrade.1, htrade.2, htrade'⟩, hlast,
      fun _ _ => ⟨hfull₁, fun r hr => (hzero₁ r hr).trans Int.cast_zero.symm⟩,
      fun _ => ⟨hwindow, hequal⟩, nofun⟩
  · simp at h

/-- A bid of another symbol enters the book. -/
theorem foreign_symbol_enters :
    let p := after (lowHost Float.Model) (.ofView [65]) {} tenCents
    let ev := MarketEvent.makeQuote 1 3 (.ofView [66]) .buy (.fromTicks 1000900) 5
    Foreign (.ofView [65]) p ev ∧ ¬ Undisturbed p (p.process (lowHost Float.Model) ev) := by
  refine ⟨⟨by decide, by decide +kernel, by decide +kernel, by decide +kernel⟩, fun h => ?_⟩
  exact absurd (h.book.levels .bid) (by decide +kernel)

end Pipeline

end Lob
