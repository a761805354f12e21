import LobMarketMaker.Pipeline.History
import LobMarketMaker.Pipeline.Slots

/-!
# Quotes rest only against a healthy market

* `Quotable`: a two-sided book that is not crossed;
* `Healthy`: nothing rests, or the book is quotable and the data are fresh; `Healthy.process`,
  `Healthy.onClock`: every call keeps it;
* **`openOrders_healthy`**: open orders need a healthy market, and a silent feed leaves none, as
  long as the two times are less than `2 ^ 63` nanoseconds apart; `openOrders_healthy_fails`.
-/

set_option autoImplicit false

namespace Lob

open Foundation

/-- Two-sided, with the best bid below the best ask. -/
def OrderBook.Quotable (b : OrderBook) : Prop :=
  ∃ bb ba, b.bestBid = some bb ∧ b.bestAsk = some ba ∧ bb < ba

namespace OrderBook

variable {b b' : OrderBook}

theorem Quotable.congr (h : b.Quotable) (hb : ∀ s, b'.levels s = b.levels s) : b'.Quotable := by
  have hbid : b'.bids = b.bids := hb .bid
  have hask : b'.asks = b.asks := hb .ask
  unfold Quotable bestBid bestAsk
  rw [hbid, hask]
  exact h

theorem quotable_of_midPrice {F : Type} [Double F] {mid : F} (hm : b.midPrice = some mid)
    (hc : b.crossed = false) : b.Quotable := by
  obtain ⟨bb, ba, hbid, hask, -⟩ := midPrice_eq_some_iff.mp hm
  refine ⟨bb, ba, hbid, hask, ?_⟩
  unfold crossed at hc
  rw [hbid, hask] at hc
  exact not_le.mp (of_decide_eq_false hc)

theorem Quotable.crossed (h : b.Quotable) : b.crossed = false := by
  obtain ⟨bb, ba, hbid, hask, hlt⟩ := h
  unfold OrderBook.crossed
  rw [hbid, hask]
  exact decide_eq_false (not_le.mpr hlt)

end OrderBook

namespace Pipeline

variable {F : Type} [Double F] {host : Host F} {p q : Pipeline F} {ev : MarketEvent}

/-- Nothing rests. -/
def Idle (p : Pipeline F) : Prop := ∀ s, p.resting s = none

/-- What rests rests against a quotable book. -/
def Guarded (p : Pipeline F) : Prop := p.Idle ∨ p.book.Quotable

/-- What rests rests against a quotable book and fresh data. -/
def Healthy (p : Pipeline F) : Prop := p.Idle ∨ (p.book.Quotable ∧ p.marketDataStale = false)

theorem Healthy.guarded (h : p.Healthy) : p.Guarded := h.imp id And.left

theorem Idle.congr (h : p.Idle) (hbid : q.restingBid = p.restingBid)
    (hask : q.restingAsk = p.restingAsk) : q.Idle := by
  intro s
  cases s
  · exact hbid.trans (h .bid)
  · exact hask.trans (h .ask)

theorem blind_guarded : Blind (Guarded (F := F)) := by
  refine blind_of (fun p h => ?_) (fun p h => ?_)
  · exact h.imp (fun hi => hi.congr rfl rfl) id
  · exact h.imp (fun hi => hi.congr rfl rfl) id

/-! ## The stages -/

theorem Guarded.intake (h : p.Guarded) (ev : MarketEvent) : (p.intake ev).Guarded := by
  unfold Pipeline.intake
  split_ifs
  · have hc : ((p.track ev).cancelRestingQuotes ev.timestamp).Idle :=
      cancelRestingQuotes_resting _ ev.timestamp
    exact .inl (hc.congr rfl rfl)
  · exact h.imp (fun hi => hi.congr rfl rfl) id

theorem Guarded.observe (h : p.Guarded) (host : Host F) (hev : bookChanged ev = false) :
    (p.observe host ev).Guarded := by
  refine h.imp (fun hi => hi.congr rfl rfl) fun hq => ?_
  have hlevels : ∀ s, (p.book.apply ev).levels s = p.book.levels s := by
    unfold bookChanged at hev
    simp only [Bool.or_eq_false_iff, decide_eq_false_iff_not] at hev
    exact OrderBook.apply_levels_of_not_change _ hev.1.1 hev.1.2 hev.2
  exact hq.congr hlevels

theorem Guarded.execute (h : p.Guarded) (host : Host F) (ev : MarketEvent) :
    (p.execute host ev).Guarded := by
  refine h.imp (fun hi s => execute_resting (hi s) host ev) fun hq => ?_
  rw [(SameFeed.execute host p ev).book]
  exact hq

theorem guarded_requoteSides (hc : p.book.crossed = false) (host : Host F) (now : Timestamp) :
    (p.requoteSides host now).Guarded := by
  by_cases hquote : ∃ s, (p.decision host now).quote s = true
  · obtain ⟨s, hs⟩ := hquote
    obtain ⟨mid, hm⟩ := StrategyConfig.midPrice_of_quote p.strategy hs
    refine .inr ?_
    rw [(SameMarket.requoteSides host p now).book]
    exact OrderBook.quotable_of_midPrice hm hc
  · refine .inl fun s => requoteSides_resting ?_
    exact Bool.eq_false_iff.mpr fun hs => hquote ⟨s, hs⟩

theorem guarded_requote (hc : p.book.crossed = false) (host : Host F) (now : Timestamp) :
    (p.requote host now).Guarded := by
  refine requote_rule (A := fun q => q.book.crossed = false) ?_ blind_guarded
    (fun q hq => guarded_requoteSides hq host now) hc
  exact blind_of (fun _ h => h) (fun _ h => h)

theorem Guarded.settle (h : bookChanged ev = false → p.Guarded) (host : Host F) :
    (p.settle host ev).Guarded := by
  unfold Pipeline.settle
  split_ifs with hc hb
  · exact .inl fun s => cancelRestingQuotes_resting _ ev.timestamp s
  · exact guarded_requote (Bool.eq_false_iff.mpr hc) host ev.timestamp
  · exact h (Bool.eq_false_iff.mpr hb)

/-! ## The calls -/

theorem guarded_process (h : p.Guarded) (hd : p.outOfOrder ev = false) :
    (p.process host ev).Guarded := by
  have hcounted : p.counted.Guarded := h.imp (fun hi => hi.congr rfl rfl) id
  have hblind : Blind fun q : Pipeline F => bookChanged ev = false → q.Guarded :=
    fun q q' hq h hev => blind_guarded q q' hq (h hev)
  exact process_rule blind_guarded hblind hblind hd (hcounted.intake ev)
    (fun _ hq hev => hq.observe host hev) (fun _ hq hev => (hq hev).execute host ev)
    (fun _ hq => Guarded.settle hq host)

/-- **Every event** leaves a healthy pipeline. -/
theorem Healthy.process (h : p.Healthy) (host : Host F) (ev : MarketEvent) :
    (p.process host ev).Healthy := by
  by_cases hd : p.outOfOrder ev = true
  · rw [process_dropped hd]
    exact h.imp (fun hi => hi.congr rfl rfl) id
  · have hd' := Bool.eq_false_iff.mpr hd
    have hfresh := (heard_process host hd').marketDataStale
    exact (guarded_process h.guarded hd').imp id fun hq => ⟨hq, hfresh⟩

theorem Healthy.onClock (h : p.Healthy) (now : Timestamp) : (p.onClock now).Healthy := by
  rcases onClock_cases (p := p) now with hc | ⟨ts, -, -, -, hc⟩ <;> rw [hc]
  · exact h
  · exact .inl fun s => cancelRestingQuotes_resting _ now s

/-- **Run lemma.** -/
theorem after_healthy (host : Host F) (symbol : Symbol) (cfg : PipelineConfig F)
    (calls : List Call) : (after host symbol cfg calls).Healthy := by
  refine run_invariant (call host) (fun p c h => ?_) (.inl fun s => by cases s <;> rfl) calls
  cases c with
  | process ev => exact h.process host ev
  | onClock now => exact h.onClock now

theorem Healthy.idle_of_silent (h : p.Healthy) {ts now : Timestamp} (hts : p.lastEventTs = some ts)
    (hnow : wrapI64 (now - ts) > p.staleThreshold) : (p.onClock now).Idle := by
  rcases onClock_cases (p := p) now with hc | ⟨ts', -, -, -, hc⟩ <;> rw [hc]
  · -- nothing happens only if the feed was found silent before
    rcases h with hi | ⟨-, hfresh⟩
    · exact hi
    · intro s
      have hc' := hc
      unfold Pipeline.onClock at hc'
      rw [hts] at hc'
      dsimp only at hc'
      rw [hfresh, if_neg Bool.false_ne_true, if_pos hnow] at hc'
      rw [← hc']
      exact cancelRestingQuotes_resting _ now s
  · exact fun s => cancelRestingQuotes_resting _ now s

/-- **Quotes rest only against a healthy market.** With an open order the book is two-sided and not
crossed and the data are not stale; a clock reading more than the threshold after the last accepted
event leaves no open order, unless the difference of the two times is out of range. -/
theorem openOrders_healthy (host : Host F) (symbol : Symbol) (cfg : PipelineConfig F)
    (calls : List Call) :
    let p := after host symbol cfg calls
    (p.exec.openOrders ≠ [] → p.book.Quotable ∧ p.marketDataStale = false) ∧
    ∀ now ev, ((new symbol cfg).accepted host calls).getLast? = some ev →
      InI64 (now - ev.timestamp) → now - ev.timestamp > (new symbol cfg).staleThreshold →
      (after host symbol cfg (calls ++ [.onClock now])).exec.openOrders = [] := by
  intro p
  have hp : p.Healthy := after_healthy host symbol cfg calls
  constructor
  · intro hopen
    obtain ⟨d, hd⟩ := after_shows host symbol cfg calls
    exact hp.resolve_left fun hi => hopen (hd.eq_nil hi)
  · intro now ev hev hfits hnow
    obtain ⟨d, hd⟩ := after_shows host symbol cfg (calls ++ [.onClock now])
    have ht := after_trackers host symbol cfg calls
    have hts : p.lastEventTs = some ev.timestamp := by
      rw [ht.lastEventTs, hev]
      rfl
    refine hd.eq_nil ?_
    rw [after, run_concat]
    refine hp.idle_of_silent hts ?_
    rw [wrapI64_of_inI64 hfits, ht.staleThreshold]
    exact hnow

/-- A bid and an ask ten cents apart, both at the time `t`. -/
def quotedAt (t : Timestamp) : List Call :=
  [.process (.makeQuote t 1 (.ofView [65]) .buy (.fromTicks 1000000) 100),
    .process (.makeQuote t 2 (.ofView [65]) .sell (.fromTicks 1001000) 100)]

/-- Two orders are open, and six seconds later none. -/
theorem openOrders_healthy_quoted :
    (after (lowHost ℚ) (.ofView [65]) {} (quotedAt 1)).exec.openOrders.length = 2 ∧
    (after (lowHost ℚ) (.ofView [65]) {}
      (quotedAt 1 ++ [.onClock 6000000001])).exec.openOrders = [] :=
  ⟨by decide +kernel, (openOrders_healthy (lowHost ℚ) (.ofView [65]) {} (quotedAt 1)).2
    6000000001 (.makeQuote 1 2 (.ofView [65]) .sell (.fromTicks 1001000) 100) (by decide +kernel)
    (by decide) (by decide +kernel)⟩

/-- **A difference of the times that wraps around is no silence**: the quotes stay. -/
theorem openOrders_healthy_fails :
    ¬ ∀ (host : Host ℚ) (symbol : Symbol) (cfg : PipelineConfig ℚ) (calls : List Call),
      let p := after host symbol cfg calls
      (p.exec.openOrders ≠ [] → p.book.Quotable ∧ p.marketDataStale = false) ∧
      ∀ now ev, ((new symbol cfg).accepted host calls).getLast? = some ev →
        now - ev.timestamp > (new symbol cfg).staleThreshold →
        (after host symbol cfg (calls ++ [.onClock now])).exec.openOrders = [] := by
  intro h
  have hnone := (h (lowHost ℚ) (.ofView [65]) {} (quotedAt (-7600000000000000000))).2
    1760000000000000000
    (.makeQuote (-7600000000000000000) 2 (.ofView [65]) .sell (.fromTicks 1001000) 100)
    (by decide +kernel) (by decide +kernel)
  have hopen : (after (lowHost ℚ) (.ofView [65]) {} (quotedAt (-7600000000000000000) ++
      [.onClock 1760000000000000000])).exec.openOrders.length = 2 := by decide +kernel
  rw [hnone] at hopen
  exact absurd hopen (by decide)

end Pipeline

end Lob
