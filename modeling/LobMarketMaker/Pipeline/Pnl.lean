import LobMarketMaker.Pipeline.Health

/-!
# The profit and loss is never stale

A fill leaves the unrealized and the total P&L as they were, and only a mid price renews them. But
fills need open orders, open orders a two-sided book, and a trade changes no level.

* `Ledger`: the total adds up, and every risk check saw it up to date;
* `Marked`: the unrealized part is at the current mid price;
* `Ledger.process`, `Ledger.onClock`: every call keeps the ledger;
* **`pnl_never_stale`**.
-/

set_option autoImplicit false

namespace Lob

open Foundation

theorem OrderBook.Quotable.midPrice {F : Type} [Double F] {b : OrderBook} (h : b.Quotable) :
    ∃ mid : F, b.midPrice = some mid := by
  obtain ⟨bb, ba, hbid, hask, -⟩ := h
  exact ⟨_, midPrice_eq_some_iff.mpr ⟨bb, ba, hbid, hask, rfl⟩⟩

/-- The check was made under these limits, on a P&L marked at the mid price of the time. -/
def RiskRecord.UpToDate {F : Type} [Double F] (r : RiskRecord F) (limits : RiskLimits F) : Prop :=
  r.decision = limits.check r.input ∧
    ∃ mid, r.mid = some mid ∧ r.input.currentDailyPnl =
      r.state.realizedPnl + ofInt r.state.position * (mid - r.state.avgEntryPrice)

namespace Pipeline

variable {F : Type} [Double F] {host : Host F} {p q : Pipeline F} {ev : MarketEvent}

/-- The P&L adds up, and so did the input of every check that was made. -/
structure Ledger (p : Pipeline F) : Prop where
  consistent : p.portfolio.state.Consistent
  checks : ∀ r ∈ p.checks, r.UpToDate p.risk
  submitted : p.stats.quotesSubmitted = p.checks.countP (·.decision = .approved)

/-- The unrealized P&L is at the current mid price. -/
def Marked (p : Pipeline F) : Prop :=
  ∀ mid : F, p.book.midPrice = some mid → p.portfolio.state.MarkedAt mid

/-- The pipelines agree on the risk checks made. -/
structure SameChecks (p q : Pipeline F) : Prop where
  risk : q.risk = p.risk
  checks : q.checks = p.checks
  submitted : q.stats.quotesSubmitted = p.stats.quotesSubmitted

theorem SameChecks.trans {p p' p'' : Pipeline F} (h : SameChecks p p') (h' : SameChecks p' p'') :
    SameChecks p p'' :=
  ⟨h'.risk.trans h.risk, h'.checks.trans h.checks, h'.submitted.trans h.submitted⟩

theorem Ledger.congr (h : p.Ledger) (hc : SameChecks p q) (hq : q.portfolio.state.Consistent) :
    q.Ledger where
  consistent := hq
  checks := by
    rw [hc.checks, hc.risk]
    exact h.checks
  submitted := by
    rw [hc.checks, hc.submitted]
    exact h.submitted

theorem Ledger.congr_portfolio (h : p.Ledger) (hc : SameChecks p q)
    (hq : q.portfolio = p.portfolio) : q.Ledger := h.congr hc (by rw [hq]; exact h.consistent)

/-! ## Operations without a risk check -/

theorem SameChecks.cancelSide (p : Pipeline F) (s : BookSide) (now : Timestamp) :
    SameChecks p (p.cancelSide s now) := by
  unfold Pipeline.cancelSide
  split
  · exact ⟨rfl, rfl, rfl⟩
  · cases s <;> exact ⟨rfl, rfl, rfl⟩

theorem SameChecks.cancelRestingQuotes (p : Pipeline F) (now : Timestamp) :
    SameChecks p (p.cancelRestingQuotes now) :=
  (SameChecks.cancelSide p .bid now).trans (SameChecks.cancelSide _ .ask now)

theorem SameChecks.foldl_applyReport (rs : List ExecutionReport) (p : Pipeline F) :
    SameChecks p (rs.foldl applyReport p) := by
  induction rs generalizing p with
  | nil => exact ⟨rfl, rfl, rfl⟩
  | cons r rs ih =>
    have hr : SameChecks p (p.applyReport r) := by
      rw [applyReport_eq]
      exact ⟨rfl, rfl, rfl⟩
    exact hr.trans (ih _)

theorem SameChecks.takeFills (host : Host F) (p : Pipeline F) (ev : MarketEvent) :
    SameChecks p (p.takeFills host ev) := by
  have h := foldl_applyReport (p.exec.onMarketEvent host ev).1
    { p with exec := (p.exec.onMarketEvent host ev).2 }
  exact ⟨h.risk, h.checks, h.submitted⟩

/-! ## The risk check -/

theorem Ledger.submit (h : p.Ledger) {mid : F} (hm : p.book.midPrice = some mid)
    (hp : p.portfolio.state.MarkedAt mid) (host : Host F) (s : BookSide) (price : Price)
    (size : Quantity) (ref : F) (now : Timestamp) : (p.submit host s price size ref now).Ledger := by
  have hrecord : (p.riskRecord s size ref).UpToDate p.risk := by
    refine ⟨rfl, mid, hm, ?_⟩
    show p.portfolio.state.totalPnl = _
    rw [h.consistent, hp]
    rfl
  have hchecks : ∀ r ∈ p.checks ++ [p.riskRecord s size ref], r.UpToDate p.risk := by
    intro r hr
    rcases List.mem_append.mp hr with hr | hr
    · exact h.checks r hr
    · rw [List.mem_singleton.mp hr]
      exact hrecord
  unfold Pipeline.submit
  dsimp only
  split_ifs with hd
  · refine ⟨h.consistent, hchecks, ?_⟩
    rw [List.countP_append, List.countP_singleton, if_neg (by simpa using hd)]
    exact h.submitted
  · have hs : p.stats.quotesSubmitted + 1 =
        (p.checks ++ [p.riskRecord s size ref]).countP (·.decision = .approved) := by
      rw [List.countP_append, List.countP_singleton, if_pos (by simpa using hd), h.submitted]
    cases s
    · exact ⟨h.consistent, hchecks, hs⟩
    · exact ⟨h.consistent, hchecks, hs⟩

theorem Ledger.requoteSides (h : p.Ledger) (hp : p.Marked) (host : Host F) (now : Timestamp) :
    (p.requoteSides host now).Ledger := by
  refine requoteSides_rule (fun q s _ hq => ?_) (fun q s hm hq => ?_) h
  · unfold withdraw
    split_ifs
    · exact hq
    · exact hq.congr_portfolio (.cancelSide q s now) (SameMarket.cancelSide q s now).portfolio
  · unfold replace
    split_ifs with hc
    · have hquote := (Bool.and_eq_true_iff.mp hc).1
      obtain ⟨mid, hmid⟩ := StrategyConfig.midPrice_of_quote p.strategy hquote
      have hm' := hm.trans (SameMarket.cancelSide q s now)
      have hq' := hq.congr_portfolio (.cancelSide q s now) (SameMarket.cancelSide q s now).portfolio
      have hbook : (q.cancelSide s now).book.midPrice = some mid := by
        rw [hm'.book]
        exact hmid
      have hmarked : (q.cancelSide s now).portfolio.state.MarkedAt mid := by
        rw [hm'.portfolio]
        exact hp mid hmid
      exact hq'.submit hbook hmarked host s _ _ _ now
    · exact hq

/-! ## The stages -/

/-- An event can only fill orders against a book with a mid price. -/
def Fillable (ev : MarketEvent) (p : Pipeline F) : Prop :=
  ev.type = .trade → p.exec.openOrders ≠ [] → ∃ mid : F, p.book.midPrice = some mid

/-- **Fills are marked at once.** -/
theorem Ledger.execute (h : p.Ledger) (hf : Fillable ev p) (host : Host F) :
    (p.execute host ev).Ledger ∧ (p.execute host ev).Marked := by
  have hs := SameChecks.takeFills host p ev
  have hbook := (SameFeed.takeFills host p ev).book
  unfold Pipeline.execute mark
  cases hm : ((p.takeFills host ev).book.midPrice : Option F) with
  | some mid =>
    refine ⟨h.congr ⟨hs.risk, hs.checks, hs.submitted⟩ (Portfolio.markToMarket_consistent _ _), ?_⟩
    intro mid' hmid'
    cases hm.symm.trans hmid'
    exact Portfolio.markToMarket_markedAt _ _
  | none =>
    have hp : (p.takeFills host ev).portfolio = p.portfolio := by
      by_cases ht : ev.type = .trade
      · by_cases ho : p.exec.openOrders = []
        · rw [takeFills_of_not_hits host (by rw [ho]; exact List.forall_mem_nil _)]
        · obtain ⟨mid, hmid⟩ := hf ht ho
          rw [hbook, hmid] at hm
          cases hm
      · rw [takeFills_of_ne ht]
    refine ⟨h.congr_portfolio hs hp, fun mid hmid => ?_⟩
    cases hm.symm.trans hmid

theorem blind_ledger : Blind (Ledger (F := F)) := blind_of (fun _ h => ⟨h.1, h.2, h.3⟩)
  (fun _ h => ⟨h.1, h.2, h.3⟩)

theorem blind_marked : Blind (Marked (F := F)) := blind_of (fun _ h => h) (fun _ h => h)

theorem Marked.congr (h : p.Marked) (hb : q.book = p.book) (hp : q.portfolio = p.portfolio) :
    q.Marked := by
  unfold Marked
  rw [hb, hp]
  exact h

theorem Ledger.settle (h : p.Ledger) (hp : p.Marked) (host : Host F) (ev : MarketEvent) :
    (p.settle host ev).Ledger := by
  unfold Pipeline.settle
  split_ifs
  · refine Ledger.congr_portfolio (p := p) h ?_ ?_
    · have hc := SameChecks.cancelRestingQuotes
        { p with stats := { p.stats with crossedBookEvents := p.stats.crossedBookEvents + 1 } }
        ev.timestamp
      exact ⟨hc.risk, hc.checks, hc.submitted⟩
    · exact (SameMarket.cancelRestingQuotes _ ev.timestamp).portfolio
  · refine requote_rule (A := fun q => q.Ledger ∧ q.Marked) ?_ blind_ledger
      (fun q hq => hq.1.requoteSides hq.2 host ev.timestamp) ⟨h, hp⟩
    exact fun q q' hq hA => ⟨blind_ledger q q' hq hA.1, blind_marked q q' hq hA.2⟩
  · exact h

theorem Ledger.intake (h : p.Ledger) (ev : MarketEvent) : (p.intake ev).Ledger := by
  have ht : (p.track ev).Ledger := h.congr_portfolio ⟨rfl, rfl, rfl⟩ rfl
  unfold Pipeline.intake
  split_ifs
  · have hs := SameChecks.cancelRestingQuotes (p.track ev) ev.timestamp
    have hm := SameMarket.cancelRestingQuotes (p.track ev) ev.timestamp
    exact ht.congr_portfolio ⟨hs.risk, hs.checks, hs.submitted⟩ hm.portfolio
  · exact ht

theorem fillable_observe {limits : RiskLimits F} {cfg : StrategyConfig F} {d : Desk}
    (hg : p.Guarded) (hr : Reaches limits cfg d p) (host : Host F) (ev : MarketEvent) :
    Fillable ev (p.observe host ev) := by
  intro ht hopen
  obtain ⟨d', -, htr⟩ := hr
  have hev : bookChanged ev = false := by
    unfold bookChanged
    rw [ht]
    rfl
  rcases hg.observe host hev with hi | hq
  · exact absurd ((htr.observe host ev).shows.eq_nil hi) hopen
  · exact hq.midPrice

/-! ## The calls -/

/-- **An accepted event** leaves a ledger that is marked at the mid price. -/
theorem Ledger.process {limits : RiskLimits F} {cfg : StrategyConfig F} {d : Desk}
    (h : p.Ledger) (hp : p.Healthy) (ht : Tracks limits cfg p p.exec d) (host : Host F)
    (hd : p.outOfOrder ev = false) :
    (p.process host ev).Ledger ∧ (p.process host ev).Marked := by
  have hl : p.counted.Ledger := h.congr_portfolio ⟨rfl, rfl, rfl⟩ rfl
  have hg : p.counted.Guarded := hp.guarded.imp (fun hi => hi.congr rfl rfl) id
  have htr : Tracks limits cfg p.counted p.counted.exec d := ht.congr
    ⟨rfl, rfl, fun s => by cases s <;> rfl, rfl, rfl, rfl, rfl, rfl, rfl, rfl, rfl⟩
  have hA : Blind fun q => q.Ledger ∧ q.Guarded ∧ Reaches limits cfg d q := fun q q' hq hA =>
    ⟨blind_ledger q q' hq hA.1, blind_guarded q q' hq hA.2.1, blind_reaches q q' hq hA.2.2⟩
  have hB : Blind fun q : Pipeline F => q.Ledger ∧ Fillable ev q := by
    refine blind_of (fun q hq => ?_) (fun q hq => ?_)
    · exact ⟨⟨hq.1.1, hq.1.2, hq.1.3⟩, hq.2⟩
    · exact ⟨⟨hq.1.1, hq.1.2, hq.1.3⟩, hq.2⟩
  have hC : Blind fun q : Pipeline F => q.Ledger ∧ q.Marked := fun q q' hq hC =>
    ⟨blind_ledger q q' hq hC.1, blind_marked q q' hq hC.2⟩
  refine process_rule (D := fun q => q.Ledger ∧ q.Marked) hA hB hC hd
    ⟨hl.intake ev, hg.intake ev, htr.intake ev⟩ ?_ ?_ ?_
  · rintro q ⟨hl, hg, hr⟩
    exact ⟨hl.congr_portfolio ⟨rfl, rfl, rfl⟩ rfl, fillable_observe hg hr host ev⟩
  · rintro q ⟨hl, hf⟩
    exact hl.execute hf host
  · rintro q ⟨hl, hm⟩
    exact ⟨hl.settle hm host ev, hm.congr (SameFeed.settle host q ev).book
      (SameMarket.settle host q ev).portfolio⟩

theorem Ledger.onClock (h : p.Ledger) (now : Timestamp) : (p.onClock now).Ledger := by
  rcases onClock_cases (p := p) now with hc | ⟨ts, -, -, -, hc⟩ <;> rw [hc]
  · exact h
  · have hs := SameChecks.cancelRestingQuotes p.alarmed now
    refine Ledger.congr_portfolio (p := p) h ⟨hs.risk, hs.checks, hs.submitted⟩ ?_
    exact (SameMarket.cancelRestingQuotes _ now).portfolio

/-- **Run lemma.** -/
theorem after_ledger (host : Host F) (symbol : Symbol) (cfg : PipelineConfig F)
    (h0 : (ofInt 0 : F) = ofInt 0 + ofInt 0) (calls : List Call) :
    (after host symbol cfg calls).Ledger := by
  induction calls using List.reverseRecOn with
  | nil =>
    refine ⟨h0, fun r hr => ?_, rfl⟩
    cases hr
  | append_singleton calls c ih =>
    rw [after, run_concat]
    cases c with
    | process ev =>
      by_cases hd : (after host symbol cfg calls).outOfOrder ev = true
      · show ((after host symbol cfg calls).process host ev).Ledger
        rw [process_dropped hd]
        exact ih.congr_portfolio ⟨rfl, rfl, rfl⟩ rfl
      · obtain ⟨d, ht⟩ := exists_tracks host symbol cfg calls
        exact (ih.process (after_healthy host symbol cfg calls) ht host
          (Bool.eq_false_iff.mpr hd)).1
    | onClock now => exact ih.onClock now

/-- **The P&L is never stale.** The total is realized plus unrealized; after an accepted event that
leaves the book two-sided the unrealized part is marked at the mid price; every risk check saw the
realized and marked P&L of the moment, and none of those that let an order through saw a loss at
the limit. -/
theorem pnl_never_stale (host : Host ℚ) (symbol : Symbol) (cfg : PipelineConfig ℚ)
    (calls : List Call) :
    let p := after host symbol cfg calls
    (p.portfolio.state.totalPnl =
      p.portfolio.state.realizedPnl + p.portfolio.state.unrealizedPnl) ∧
    (∀ ev mid, p.outOfOrder ev = false →
      let p' := after host symbol cfg (calls ++ [.process ev])
      p'.book.midPrice = some mid → p'.portfolio.state.unrealizedPnl =
        p'.portfolio.state.position * (mid - p'.portfolio.state.avgEntryPrice)) ∧
    (∀ r ∈ p.checks, r.decision = cfg.riskLimits.check r.input ∧
      ∃ mid, r.mid = some mid ∧ r.input.currentDailyPnl =
        r.state.realizedPnl + r.state.position * (mid - r.state.avgEntryPrice) ∧
        (r.decision = .approved → -cfg.riskLimits.maxDailyLoss <
          r.state.realizedPnl + r.state.position * (mid - r.state.avgEntryPrice))) ∧
    p.stats.quotesSubmitted = p.checks.countP (·.decision = .approved) := by
  intro p
  have h0 : (ofInt 0 : ℚ) = ofInt 0 + ofInt 0 := (add_zero _).symm
  have hl : p.Ledger := after_ledger host symbol cfg h0 calls
  have hrisk : p.risk = cfg.riskLimits := (after_trackers host symbol cfg calls).risk
  refine ⟨hl.consistent, ?_, ?_, hl.submitted⟩
  · intro ev mid hd p' hmid
    obtain ⟨d, ht⟩ := exists_tracks host symbol cfg calls
    have hp' : p' = p.process host ev := run_concat _ _ _ _
    have hm := (hl.process (after_healthy host symbol cfg calls) ht host hd).2
    rw [← hp'] at hm
    exact hm mid hmid
  · intro r hr
    obtain ⟨hdec, mid, hmid, hpnl⟩ := hl.checks r hr
    rw [hrisk] at hdec
    refine ⟨hdec, mid, hmid, hpnl, fun happ => ?_⟩
    have hpass := (RiskLimits.check_approved_iff _ _).mp (hdec.symm.trans happ)
    have hloss := hpass.loss
    rw [hpnl] at hloss
    exact not_le.mp hloss

end Pipeline

end Lob
