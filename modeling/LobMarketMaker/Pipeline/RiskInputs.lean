import LobMarketMaker.Pipeline.Pnl

/-!
# What a risk check sees

Every order passes a risk check, and the check is as good as what it is told. It is told the truth,
and two of its rejections cannot happen: an event that reaches quoting has just cleared the stale
flag, and a side is canceled before it is quoted anew, so that at most one order is open.

* `RiskRecord.Sound`: what a check was told;
* `Checked`: every check so far was sound; `Checked.submit`: so is one more;
* `Checked.requoteSides`, `Checked.process`: through a requote and a call;
* **`risk_inputs_sound`**.
-/

set_option autoImplicit false

namespace Lob

open Foundation

/-- The check was made on fresh data with at most one open order, at the mid price and the position
of the moment, for the size that the strategy gives this position. -/
structure RiskRecord.Sound {F : Type} [Double F] (limits : RiskLimits F) (cfg : StrategyConfig F)
    (r : RiskRecord F) : Prop where
  decision : r.decision = limits.check r.input
  fresh : r.input.marketDataStale = false
  openOrders : r.input.currentOpenOrders ≤ 1
  position : r.input.currentPosition = r.state.position
  reference : r.mid = some r.input.referencePrice
  size : ∃ s : BookSide, r.input.orderSide = s.side ∧
    r.input.orderQuantity = cfg.taperedSize r.state.position s
  positive : 0 < r.input.orderQuantity

namespace Pipeline

variable {F : Type} [Double F] {host : Host F} {limits : RiskLimits F} {cfg : StrategyConfig F}
  {p q : Pipeline F} {ev : MarketEvent} {d : Desk}

/-- The orders are those of a desk, and every check so far was sound. -/
structure Checked (limits : RiskLimits F) (cfg : StrategyConfig F) (p : Pipeline F) : Prop where
  tracks : ∃ d, Tracks limits cfg p p.exec d
  sound : ∀ r ∈ p.checks, r.Sound limits cfg

theorem Reaches.exists_tracks (h : Reaches limits cfg d p) : ∃ d, Tracks limits cfg p p.exec d := by
  obtain ⟨d', -, h⟩ := h
  exact ⟨d', h⟩

theorem Checked.congr (h : Checked limits cfg p) (hq : ∃ d, Tracks limits cfg q q.exec d)
    (hc : SameChecks p q) : Checked limits cfg q where
  tracks := hq
  sound := by rw [hc.checks]; exact h.sound

theorem blind_checked : Blind (Checked limits cfg) := by
  intro p q hpq h
  obtain ⟨d, hd⟩ := h.tracks
  have hchecks := congrArg Pipeline.checks hpq
  exact ⟨(blind_reaches p q hpq hd.reaches).exists_tracks,
    fun r hr => h.sound r (hchecks.symm ▸ hr : r ∈ p.untimed.checks)⟩

theorem Tracks.openOrderCount_le (h : Tracks limits cfg p p.exec d) {s : BookSide}
    (hs : p.resting s = none) : p.exec.openOrderCount ≤ 1 := by
  have hslot := h.shows.slots s
  rw [hs, eq_comm, Option.map_eq_none_iff] at hslot
  rw [PaperExecutionEngine.openOrderCount, (h.shows.entries_of_none hslot).length_eq,
    Desk.sideEntries, List.length_map]
  cases d.resting s.other with
  | none => exact Nat.zero_le 1
  | some o => exact le_refl 1

/-- **A submission** for a side that rests nothing makes a sound check. -/
theorem Checked.submit (h : Checked limits cfg p) (hfresh : p.marketDataStale = false)
    {s : BookSide} (hs : p.resting s = none) {size : Quantity} {ref : F}
    (hmid : p.book.midPrice = some ref)
    (hsize : cfg.taperedSize p.portfolio.state.position s = size) (hpos : 0 < size)
    (host : Host F) (price : Price) (now : Timestamp) :
    Checked limits cfg (p.submit host s price size ref now) := by
  obtain ⟨d, hd⟩ := h.tracks
  refine ⟨(hd.submit hs hsize host price ref now).exists_tracks, fun r hr => ?_⟩
  have hsound : (p.riskRecord s size ref).Sound limits cfg :=
    { decision := congrArg (·.check (p.riskRecord s size ref).input) hd.risk
      fresh := hfresh
      openOrders := hd.openOrderCount_le hs
      position := rfl
      reference := hmid
      size := ⟨s, rfl, hsize.symm⟩
      positive := hpos }
  have hchecks : (p.submit host s price size ref now).checks =
      p.checks ++ [p.riskRecord s size ref] := by
    unfold Pipeline.submit
    dsimp only
    split_ifs
    · rfl
    · cases s <;> rfl
  rw [hchecks] at hr
  rcases List.mem_append.mp hr with hr | hr
  · exact h.sound r hr
  · rw [List.mem_singleton.mp hr]
    exact hsound

/-- **A requote** on fresh data makes sound checks. -/
theorem Checked.requoteSides (h : Checked limits cfg p) (hfresh : p.marketDataStale = false)
    (host : Host F) (now : Timestamp) : Checked limits cfg (p.requoteSides host now) := by
  refine requoteSides_rule (fun q s _ hq => ?_) (fun q s hm hq => ?_) h
  · obtain ⟨d, hd⟩ := hq.tracks
    refine hq.congr (hd.withdraw s _ now).exists_tracks ?_
    unfold withdraw
    split_ifs
    · exact ⟨rfl, rfl, rfl⟩
    · exact .cancelSide q s now
  · unfold replace
    split_ifs with hc
    · have hquote := (Bool.and_eq_true_iff.mp hc).1
      obtain ⟨mid, hmid⟩ := StrategyConfig.midPrice_of_quote p.strategy hquote
      obtain ⟨hsize, hpos⟩ := StrategyConfig.decide_size p.strategy hquote
      obtain ⟨d, hd⟩ := hq.tracks
      obtain ⟨hreach, hnone⟩ := hd.cancelSide s now
      have hq' := hq.congr hreach.exists_tracks (.cancelSide q s now)
      have hm' := hm.trans (SameMarket.cancelSide q s now)
      have hstrategy : cfg = p.strategy := hd.strategy.symm.trans hm.strategy
      have hbook : (q.cancelSide s now).book.midPrice = some p.referencePrice := by
        rw [hm'.book, referencePrice, hmid]
        rfl
      have htapered : cfg.taperedSize (q.cancelSide s now).portfolio.state.position s =
          (p.decision host now).size s := by
        rw [hm'.portfolio, hstrategy]
        exact hsize.symm
      exact hq'.submit (hm'.marketDataStale.trans hfresh) hnone hbook htapered
        (hsize ▸ hpos) host _ now
    · exact hq

/-! ## The calls -/

theorem Checked.settle (h : Checked limits cfg p) (hfresh : p.marketDataStale = false)
    (host : Host F) (ev : MarketEvent) : Checked limits cfg (p.settle host ev) := by
  obtain ⟨d, hd⟩ := h.tracks
  have ht := (hd.settle host ev).exists_tracks
  unfold Pipeline.settle at ht ⊢
  split_ifs at ht ⊢
  · refine h.congr ht ?_
    have hc := SameChecks.cancelRestingQuotes
      { p with stats := { p.stats with crossedBookEvents := p.stats.crossedBookEvents + 1 } }
      ev.timestamp
    exact ⟨hc.risk, hc.checks, hc.submitted⟩
  · refine requote_rule (A := fun q => Checked limits cfg q ∧ q.marketDataStale = false) ?_
      blind_checked (fun q hq => hq.1.requoteSides hq.2 host ev.timestamp) ⟨h, hfresh⟩
    intro q q' hqq' hA
    exact ⟨blind_checked q q' hqq' hA.1, (congrArg Pipeline.marketDataStale hqq').symm.trans hA.2⟩
  · exact h

theorem Checked.intake (h : Checked limits cfg p) (ev : MarketEvent) :
    Checked limits cfg (p.intake ev) := by
  obtain ⟨d, hd⟩ := h.tracks
  refine h.congr (hd.intake ev).exists_tracks ?_
  unfold Pipeline.intake
  split_ifs
  · have hs := SameChecks.cancelRestingQuotes (p.track ev) ev.timestamp
    exact ⟨hs.risk, hs.checks, hs.submitted⟩
  · exact ⟨rfl, rfl, rfl⟩

theorem Checked.execute (h : Checked limits cfg p) (host : Host F) (ev : MarketEvent) :
    Checked limits cfg (p.execute host ev) := by
  obtain ⟨d, hd⟩ := h.tracks
  have ht := (hd.takeFills host ev).trans fun _ h' => h'.mark.reaches
  refine h.congr ht.exists_tracks ?_
  have hs := SameChecks.takeFills host p ev
  unfold Pipeline.execute mark
  cases ((p.takeFills host ev).book.midPrice : Option F) with
  | none => exact hs
  | some mid => exact ⟨hs.risk, hs.checks, hs.submitted⟩

/-- **A call** keeps the checks sound. -/
theorem Checked.call (h : Checked limits cfg p) (host : Host F) (c : Call) :
    Checked limits cfg (p.call host c) := by
  obtain ⟨d, hd⟩ := h.tracks
  cases c with
  | process ev =>
    by_cases ho : p.outOfOrder ev = true
    · refine h.congr (hd.process host ev).exists_tracks ?_
      show SameChecks p (p.process host ev)
      rw [process_dropped ho]
      exact ⟨rfl, rfl, rfl⟩
    · have hcounted : Checked limits cfg p.counted := h.congr
        ⟨d, hd.congr ⟨rfl, rfl, fun s => by cases s <;> rfl, rfl, rfl, rfl, rfl, rfl, rfl, rfl,
          rfl⟩⟩ ⟨rfl, rfl, rfl⟩
      have hA : Blind fun q => Checked limits cfg q ∧ Heard p ev q := fun q q' hqq' hq =>
        ⟨blind_checked q q' hqq' hq.1, blind_heard q q' hqq' hq.2⟩
      refine process_rule hA hA hA (Bool.eq_false_iff.mpr ho)
        ⟨hcounted.intake ev, heard_intake p ev⟩ ?_ ?_ ?_
      · rintro q ⟨hq, hheard⟩
        obtain ⟨d', hd'⟩ := hq.tracks
        exact ⟨hq.congr (hd'.observe host ev).reaches.exists_tracks ⟨rfl, rfl, rfl⟩,
          hheard.observe host⟩
      · rintro q ⟨hq, hheard⟩
        exact ⟨hq.execute host ev, hheard.congr (.execute host q ev)⟩
      · rintro q ⟨hq, hheard⟩
        exact hq.settle hheard.marketDataStale host ev
  | onClock now =>
    refine h.congr (hd.onClock now).exists_tracks ?_
    show SameChecks p (p.onClock now)
    rcases onClock_cases (p := p) now with hc | ⟨ts, -, -, -, hc⟩ <;> rw [hc]
    · exact ⟨rfl, rfl, rfl⟩
    · have hs := SameChecks.cancelRestingQuotes p.alarmed now
      exact ⟨hs.risk, hs.checks, hs.submitted⟩

theorem checked_new (symbol : Symbol) (cfg : PipelineConfig F) :
    Checked cfg.riskLimits cfg.strategy (new symbol cfg) where
  tracks := ⟨{}, tracks_new symbol cfg⟩
  sound := List.forall_mem_nil _

end Pipeline

/-- **Two rejections that a sound check never gives.** -/
theorem RiskRecord.Sound.decision_ne {F : Type} [Double F] {limits : RiskLimits F}
    {cfg : StrategyConfig F} {r : RiskRecord F} (h : r.Sound limits cfg) :
    r.decision ≠ .rejectedStaleMarketData ∧
      (2 ≤ limits.maxOpenOrders → r.decision ≠ .rejectedMaxOpenOrders) := by
  have hfresh : ¬ r.input.marketDataStale = true := by
    rw [h.fresh]
    exact Bool.false_ne_true
  rw [h.decision]
  unfold RiskLimits.check
  dsimp only
  rw [if_neg hfresh]
  refine ⟨by split_ifs <;> exact RiskDecision.noConfusion, fun hmax => ?_⟩
  have hopen : ¬ r.input.currentOpenOrders ≥ limits.maxOpenOrders :=
    not_le.mpr (h.openOrders.trans_lt hmax)
  rw [if_neg hopen]
  split_ifs <;> exact RiskDecision.noConfusion

namespace Pipeline

/-- **Risk checks are told the truth.** In every run each check was made on fresh data with at most
one open order, at the mid price and the position of the moment, for a positive size that the
strategy gives this position; so no order is ever rejected for stale data, nor for the number of
open orders where two are allowed. -/
theorem risk_inputs_sound {F : Type} [Double F] (host : Host F) (symbol : Symbol)
    (cfg : PipelineConfig F) (calls : List Call) :
    ∀ r ∈ (after host symbol cfg calls).checks, r.Sound cfg.riskLimits cfg.strategy ∧
      r.decision ≠ .rejectedStaleMarketData ∧
      (2 ≤ cfg.riskLimits.maxOpenOrders → r.decision ≠ .rejectedMaxOpenOrders) := by
  have h : Checked cfg.riskLimits cfg.strategy (after host symbol cfg calls) :=
    run_invariant (call host) (P := Checked cfg.riskLimits cfg.strategy)
      (fun _ c h => h.call host c) (checked_new symbol cfg) calls
  exact fun r hr => ⟨h.sound r hr, (h.sound r hr).decision_ne⟩

/-- Two events that open a market. -/
def opening : List Call :=
  [.process (.makeQuote 1 1 (Symbol.ofView []) .buy (.fromTicks 999900) 100),
   .process (.makeQuote 2 2 (Symbol.ofView []) .sell (.fromTicks 1000100) 50)]

theorem risk_inputs_sound_opening :
    ∃ r ∈ (after (lowHost ℚ) (Symbol.ofView []) {} opening).checks,
      r.input.currentOpenOrders ≤ 1 ∧ r.decision ≠ .rejectedMaxOpenOrders := by
  have hchecks : (after (lowHost ℚ) (Symbol.ofView []) {} opening).checks ≠ [] := by
    decide +kernel
  obtain ⟨r, hr⟩ := List.exists_mem_of_ne_nil _ hchecks
  obtain ⟨hsound, -, hopen⟩ := risk_inputs_sound (lowHost ℚ) (Symbol.ofView []) {} opening r hr
  exact ⟨r, hr, hsound.openOrders, hopen (by decide)⟩

end Pipeline

end Lob
