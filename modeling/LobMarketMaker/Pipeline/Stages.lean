import LobMarketMaker.Pipeline.Model

/-!
# Rules for the entry points

* `untimed`: the pipeline without its clock readings and latency histograms, which no decision
  looks at; a `Blind` assertion does not look at them either;
* `process_rule`: an accepted event is the four stages in turn, each taken from one blind assertion
  to the next;
* `requote_rule`, `process_dropped`, `onClock_cases`: the same for the other paths.
-/

set_option autoImplicit false

namespace Lob

open Foundation

namespace Pipeline

variable {F : Type} [Double F]

section Slots

variable (p : Pipeline F) (s : BookSide) (q : Option RestingQuote)

@[simp] theorem resting_setResting_self : (p.setResting s q).resting s = q := by cases s <;> rfl

@[simp] theorem resting_setResting_other :
    (p.setResting s q).resting s.other = p.resting s.other := by cases s <;> rfl

@[simp] theorem setResting_book : (p.setResting s q).book = p.book := by cases s <;> rfl

@[simp] theorem setResting_risk : (p.setResting s q).risk = p.risk := by cases s <;> rfl

@[simp] theorem setResting_strategy : (p.setResting s q).strategy = p.strategy := by cases s <;> rfl

@[simp] theorem setResting_exec : (p.setResting s q).exec = p.exec := by cases s <;> rfl

@[simp] theorem setResting_nextOrderId : (p.setResting s q).nextOrderId = p.nextOrderId := by
  cases s <;> rfl

end Slots

variable (host : Host F) (p : Pipeline F)

/-- The pipeline without what only the timing changes. -/
def untimed : Pipeline F :=
  { p with
    clockReads := 0
    stats :=
      { p.stats with decisionLatency := {}, bookUpdateLatency := {}, executionLatency := {} } }

/-- The assertion does not look at the timing. -/
def Blind (A : Pipeline F → Prop) : Prop := ∀ p q : Pipeline F, p.untimed = q.untimed → A p → A q

theorem blind_of {A : Pipeline F → Prop} (h : ∀ p, A p → A p.untimed)
    (h' : ∀ p : Pipeline F, A p.untimed → A p) : Blind A := by
  intro p q hpq hp
  have hu := h p hp
  rw [hpq] at hu
  exact h' q hu

theorem untimed_readClock : (p.readClock host).2.untimed = p.untimed := rfl

theorem untimed_stageClock : (p.stageClock host).2.untimed = p.untimed := by
  unfold stageClock
  split_ifs <;> rfl

theorem untimed_recordStages (t0 t1 : ℤ) : (p.recordStages host t0 t1).untimed = p.untimed := by
  unfold recordStages
  split_ifs <;> rfl

/-- The pipeline with the event counted. -/
def counted : Pipeline F :=
  { p with stats := { p.stats with eventsProcessed := p.stats.eventsProcessed + 1 } }

variable {host p} {ev : MarketEvent} {A B C D : Pipeline F → Prop}

theorem process_dropped (h : p.outOfOrder ev = true) : p.process host ev =
    { p with
      stats :=
        { p.stats with
          eventsProcessed := p.stats.eventsProcessed + 1
          outOfOrderDropped := p.stats.outOfOrderDropped + 1 } } := by
  unfold process
  exact if_pos h

variable (host p ev) in
/-- An event that is counted and in order, up to the stage that quotes. -/
def unsettled : Pipeline F :=
  let (t0, p) := (p.intake ev).stageClock host
  let (t1, p) := (p.observe host ev).stageClock host
  (p.execute host ev).recordStages host t0 t1

theorem process_accepted (h : p.outOfOrder ev = false) :
    p.process host ev = (p.counted.unsettled host ev).settle host ev := by
  have hne : ¬ p.counted.outOfOrder ev = true := by
    show ¬ p.outOfOrder ev = true
    rw [h]
    exact Bool.false_ne_true
  exact if_neg hne

/-- **Rule for the stages before quoting.** -/
theorem unsettled_rule (hA : Blind A) (hB : Blind B) (hC : Blind C) (intake : A (p.intake ev))
    (observe : ∀ q, A q → B (q.observe host ev)) (execute : ∀ q, B q → C (q.execute host ev)) :
    C (p.unsettled host ev) := by
  have h₁ := hA _ _ (untimed_stageClock host _).symm intake
  have h₂ := hB _ _ (untimed_stageClock host _).symm (observe _ h₁)
  exact hC _ _ (untimed_recordStages host _ _ _).symm (execute _ h₂)

/-- **Rule for accepted events.** -/
theorem process_rule (hA : Blind A) (hB : Blind B) (hC : Blind C) (h : p.outOfOrder ev = false)
    (intake : A (p.counted.intake ev)) (observe : ∀ q, A q → B (q.observe host ev))
    (execute : ∀ q, B q → C (q.execute host ev)) (settle : ∀ q, C q → D (q.settle host ev)) :
    D (p.process host ev) := by
  rw [process_accepted h]
  exact settle _ (unsettled_rule hA hB hC intake observe execute)

theorem requote_rule (hA : Blind A) (hB : Blind B) {now : Timestamp}
    (h : ∀ q, A q → B (q.requoteSides host now)) (hp : A p) : B (p.requote host now) :=
  hB ((p.readClock host).2.requoteSides host now) _ rfl
    (h _ (hA _ _ (untimed_readClock host p).symm hp))

/-! ## What the operations leave alone -/

/-- All that a report changes. -/
theorem applyReport_eq (p : Pipeline F) (r : ExecutionReport) : p.applyReport r =
    { p with
      portfolio := (p.applyReport r).portfolio
      restingBid := (p.applyReport r).restingBid
      restingAsk := (p.applyReport r).restingAsk
      stats :=
        { p.stats with
          fills := (p.applyReport r).stats.fills
          partialFills := (p.applyReport r).stats.partialFills } } := by
  unfold applyReport
  dsimp only
  split_ifs <;> rfl

theorem foldl_applyReport_exec (rs : List ExecutionReport) (p : Pipeline F) :
    (rs.foldl applyReport p).exec = p.exec := by
  induction rs generalizing p with
  | nil => rfl
  | cons r rs ih =>
    have hr : (p.applyReport r).exec = p.exec := by rw [applyReport_eq]
    exact (ih _).trans hr

theorem takeFills_of_ne (h : ev.type ≠ .trade) : p.takeFills host ev = p := by
  unfold takeFills
  rw [PaperExecutionEngine.onMarketEvent_of_ne h]
  rfl

theorem takeFills_of_not_hits (host : Host F)
    (h : ∀ x ∈ p.exec.openOrders, ¬ PaperExecutionEngine.Hits x.2 ev) :
    p.takeFills host ev = p := by
  unfold takeFills
  rw [PaperExecutionEngine.onMarketEvent_of_not_hits host h]
  rfl

/-- The book, the feed's trackers and the configuration: what fills and quotes leave alone. -/
structure SameFeed (p p' : Pipeline F) : Prop where
  book : p'.book = p.book
  micro : p'.micro = p.micro
  risk : p'.risk = p.risk
  strategy : p'.strategy = p.strategy
  staleThreshold : p'.staleThreshold = p.staleThreshold
  requoteThresholdBps : p'.requoteThresholdBps = p.requoteThresholdBps
  marketDataStale : p'.marketDataStale = p.marketDataStale
  lastSequence : p'.lastSequence = p.lastSequence
  lastEventTs : p'.lastEventTs = p.lastEventTs
  staleResets : p'.stats.staleResets = p.stats.staleResets

namespace SameFeed

theorem refl (p : Pipeline F) : SameFeed p p := ⟨rfl, rfl, rfl, rfl, rfl, rfl, rfl, rfl, rfl, rfl⟩

theorem trans {p p' p'' : Pipeline F} (h : SameFeed p p') (h' : SameFeed p' p'') :
    SameFeed p p'' where
  book := h'.book.trans h.book
  micro := h'.micro.trans h.micro
  risk := h'.risk.trans h.risk
  strategy := h'.strategy.trans h.strategy
  staleThreshold := h'.staleThreshold.trans h.staleThreshold
  requoteThresholdBps := h'.requoteThresholdBps.trans h.requoteThresholdBps
  marketDataStale := h'.marketDataStale.trans h.marketDataStale
  lastSequence := h'.lastSequence.trans h.lastSequence
  lastEventTs := h'.lastEventTs.trans h.lastEventTs
  staleResets := h'.staleResets.trans h.staleResets

theorem applyReport (p : Pipeline F) (r : ExecutionReport) : SameFeed p (p.applyReport r) := by
  rw [applyReport_eq]
  exact ⟨rfl, rfl, rfl, rfl, rfl, rfl, rfl, rfl, rfl, rfl⟩

theorem foldl_applyReport (rs : List ExecutionReport) (p : Pipeline F) :
    SameFeed p (rs.foldl Pipeline.applyReport p) := by
  induction rs generalizing p with
  | nil => exact refl p
  | cons r rs ih => exact (applyReport p r).trans (ih _)

theorem takeFills (host : Host F) (p : Pipeline F) (ev : MarketEvent) :
    SameFeed p (p.takeFills host ev) := by
  have h := foldl_applyReport (p.exec.onMarketEvent host ev).1
    { p with exec := (p.exec.onMarketEvent host ev).2 }
  exact ⟨h.book, h.micro, h.risk, h.strategy, h.staleThreshold, h.requoteThresholdBps,
    h.marketDataStale, h.lastSequence, h.lastEventTs, h.staleResets⟩

theorem mark (p : Pipeline F) : SameFeed p p.mark := by
  unfold Pipeline.mark
  split <;> exact ⟨rfl, rfl, rfl, rfl, rfl, rfl, rfl, rfl, rfl, rfl⟩

theorem execute (host : Host F) (p : Pipeline F) (ev : MarketEvent) :
    SameFeed p (p.execute host ev) := (takeFills host p ev).trans (mark _)

end SameFeed

/-- What quoting leaves alone: the portfolio, too. -/
structure SameMarket (p p' : Pipeline F) : Prop extends SameFeed p p' where
  portfolio : p'.portfolio = p.portfolio

namespace SameMarket

theorem refl (p : Pipeline F) : SameMarket p p := ⟨.refl p, rfl⟩

theorem trans {p p' p'' : Pipeline F} (h : SameMarket p p') (h' : SameMarket p' p'') :
    SameMarket p p'' :=
  ⟨h.toSameFeed.trans h'.toSameFeed, h'.portfolio.trans h.portfolio⟩

theorem cancelSide (p : Pipeline F) (s : BookSide) (now : Timestamp) :
    SameMarket p (p.cancelSide s now) := by
  unfold Pipeline.cancelSide
  split
  · exact refl p
  · cases s <;> exact ⟨⟨rfl, rfl, rfl, rfl, rfl, rfl, rfl, rfl, rfl, rfl⟩, rfl⟩

theorem cancelRestingQuotes (p : Pipeline F) (now : Timestamp) :
    SameMarket p (p.cancelRestingQuotes now) :=
  (cancelSide p .bid now).trans (cancelSide _ .ask now)

theorem submit (host : Host F) (p : Pipeline F) (s : BookSide) (price : Price) (size : Quantity)
    (ref : F) (now : Timestamp) : SameMarket p (p.submit host s price size ref now) := by
  unfold Pipeline.submit
  dsimp only
  split_ifs
  · exact ⟨⟨rfl, rfl, rfl, rfl, rfl, rfl, rfl, rfl, rfl, rfl⟩, rfl⟩
  · cases s <;> exact ⟨⟨rfl, rfl, rfl, rfl, rfl, rfl, rfl, rfl, rfl, rfl⟩, rfl⟩

theorem withdraw (p : Pipeline F) (s : BookSide) (qd : QuoteDecision) (now : Timestamp) :
    SameMarket p (p.withdraw s qd now) := by
  unfold Pipeline.withdraw
  split_ifs
  · exact refl p
  · exact cancelSide p s now

theorem replace (host : Host F) (p : Pipeline F) (s : BookSide) (qd : QuoteDecision) (ref : F)
    (ticks : ℤ) (now : Timestamp) : SameMarket p (p.replace host s qd ref ticks now) := by
  unfold Pipeline.replace
  split_ifs
  · exact (cancelSide p s now).trans (submit host _ s _ _ _ _)
  · exact refl p

end SameMarket

/-! ## Slots -/

theorem cancelSide_self (p : Pipeline F) (s : BookSide) (now : Timestamp) :
    (p.cancelSide s now).resting s = none := by
  unfold cancelSide
  split
  · assumption
  · exact resting_setResting_self _ _ _

theorem cancelSide_other (p : Pipeline F) (s : BookSide) (now : Timestamp) :
    (p.cancelSide s now).resting s.other = p.resting s.other := by
  unfold cancelSide
  split
  · rfl
  · rw [resting_setResting_other]
    cases s <;> rfl

theorem submit_other (host : Host F) (p : Pipeline F) (s : BookSide) (price : Price)
    (size : Quantity) (ref : F) (now : Timestamp) :
    (p.submit host s price size ref now).resting s.other = p.resting s.other := by
  unfold submit
  dsimp only
  split_ifs
  · cases s <;> rfl
  · rw [resting_setResting_other]
    cases s <;> rfl

theorem withdraw_self {s : BookSide} {qd : QuoteDecision} (h : qd.quote s = false) (p : Pipeline F)
    (now : Timestamp) : (p.withdraw s qd now).resting s = none := by
  rw [withdraw, if_pos (by simp [h])]
  exact cancelSide_self p s now

theorem withdraw_other (p : Pipeline F) (s : BookSide) (qd : QuoteDecision) (now : Timestamp) :
    (p.withdraw s qd now).resting s.other = p.resting s.other := by
  unfold withdraw
  split_ifs
  · rfl
  · exact cancelSide_other p s now

theorem replace_self {s : BookSide} {qd : QuoteDecision} (h : qd.quote s = false) (host : Host F)
    (p : Pipeline F) (ref : F) (ticks : ℤ) (now : Timestamp) :
    p.replace host s qd ref ticks now = p := by
  rw [replace, if_neg (by simp [h])]

theorem replace_other (host : Host F) (p : Pipeline F) (s : BookSide) (qd : QuoteDecision)
    (ref : F) (ticks : ℤ) (now : Timestamp) :
    (p.replace host s qd ref ticks now).resting s.other = p.resting s.other := by
  unfold replace
  split_ifs
  · rw [submit_other, cancelSide_other]
  · rfl

theorem cancelRestingQuotes_resting (p : Pipeline F) (now : Timestamp) (s : BookSide) :
    (p.cancelRestingQuotes now).resting s = none := by
  cases s
  · exact (cancelSide_other _ .ask now).trans (cancelSide_self p .bid now)
  · exact cancelSide_self _ .ask now

theorem applyReport_resting {s : BookSide} (h : p.resting s = none) (r : ExecutionReport) :
    (p.applyReport r).resting s = none := by
  unfold applyReport
  dsimp only
  cases s <;> split_ifs <;> first | exact h | rfl

theorem foldl_applyReport_resting {s : BookSide} (rs : List ExecutionReport) {p : Pipeline F}
    (h : p.resting s = none) : (rs.foldl applyReport p).resting s = none := by
  induction rs generalizing p with
  | nil => exact h
  | cons r rs ih => exact ih (applyReport_resting h r)

theorem execute_resting {s : BookSide} (h : p.resting s = none) (host : Host F)
    (ev : MarketEvent) : (p.execute host ev).resting s = none := by
  have ht : (p.takeFills host ev).resting s = none :=
    foldl_applyReport_resting _ (by cases s <;> exact h)
  unfold execute mark
  split
  · cases s <;> exact ht
  · exact ht

/-- The reference price of a requote. -/
def referencePrice (p : Pipeline F) : F := p.book.midPrice.getD (ofInt 0)

/-- **Rule for the two sides.** What withdrawing and replacing a side preserve while the market
stays as it is. -/
theorem requoteSides_rule {now : Timestamp}
    (withdraw : ∀ q s, SameMarket p q → A q → A (q.withdraw s (p.decision host now) now))
    (replace : ∀ q s, SameMarket p q → A q → A (q.replace host s (p.decision host now)
      p.referencePrice (p.thresholdTicks p.referencePrice) now)) (hp : A p) :
    A (p.requoteSides host now) := by
  have hm₁ := SameMarket.withdraw p .bid (p.decision host now) now
  have hm₂ := hm₁.trans (SameMarket.withdraw _ .ask (p.decision host now) now)
  have hm₃ := hm₂.trans (SameMarket.replace host _ .bid (p.decision host now)
    p.referencePrice (p.thresholdTicks p.referencePrice) now)
  have h₁ := withdraw p .bid (.refl p) hp
  have h₂ := withdraw _ .ask hm₁ h₁
  exact replace _ .ask hm₃ (replace _ .bid hm₂ h₂)

theorem SameMarket.requoteSides (host : Host F) (p : Pipeline F) (now : Timestamp) :
    SameMarket p (p.requoteSides host now) :=
  requoteSides_rule (fun q s _ h => h.trans (SameMarket.withdraw q s _ now))
    (fun q s _ h => h.trans (SameMarket.replace host q s _ _ _ now)) (.refl p)

theorem blind_sameMarket (p : Pipeline F) : Blind (SameMarket p) :=
  blind_of (fun _ h => { h with }) (fun _ h => { h with })

theorem SameMarket.requote (host : Host F) (p : Pipeline F) (now : Timestamp) :
    SameMarket p (p.requote host now) :=
  requote_rule (blind_sameMarket p) (blind_sameMarket p)
    (fun q h => h.trans (SameMarket.requoteSides host q now)) (.refl p)

/-- **Quoting** leaves the market alone. -/
theorem SameMarket.settle (host : Host F) (p : Pipeline F) (ev : MarketEvent) :
    SameMarket p (p.settle host ev) := by
  unfold Pipeline.settle
  split_ifs
  · have h := SameMarket.cancelRestingQuotes
      { p with stats := { p.stats with crossedBookEvents := p.stats.crossedBookEvents + 1 } }
      ev.timestamp
    exact { h with }
  · exact requote host p ev.timestamp
  · exact refl p

theorem SameFeed.settle (host : Host F) (p : Pipeline F) (ev : MarketEvent) :
    SameFeed p (p.settle host ev) := (SameMarket.settle host p ev).toSameFeed

theorem requoteSides_resting {now : Timestamp} {s : BookSide}
    (h : (p.decision host now).quote s = false) : (p.requoteSides host now).resting s = none := by
  unfold requoteSides
  dsimp only
  cases s
  · refine (replace_other host _ .ask _ _ _ now).trans ?_
    rw [replace_self h]
    exact (withdraw_other _ .ask _ now).trans (withdraw_self h p now)
  · rw [replace_self h]
    refine (replace_other host _ .bid _ _ _ now).trans ?_
    exact withdraw_self h _ now

/-! ## The clock -/

/-- The feed has been silent for longer than the threshold, and this is news. -/
def silent (p : Pipeline F) (now : Timestamp) : Bool :=
  !p.marketDataStale && p.lastEventTs.any fun ts => wrapI64 (now - ts) > p.staleThreshold

/-- The pipeline told that the feed is silent. -/
def alarmed (p : Pipeline F) : Pipeline F :=
  { p with
    marketDataStale := true
    stats := { p.stats with clockStaleEvents := p.stats.clockStaleEvents + 1 } }

theorem onClock_eq (p : Pipeline F) (now : Timestamp) :
    p.onClock now = if p.silent now then p.alarmed.cancelRestingQuotes now else p := by
  unfold onClock silent alarmed
  cases hts : p.lastEventTs with
  | none => simp
  | some ts =>
    simp only [Option.any_some, Bool.and_eq_true, Bool.not_eq_true', decide_eq_true_eq]
    by_cases hstale : p.marketDataStale = true
    · rw [if_pos hstale, if_neg (fun h => by simp [hstale] at h)]
    · rw [if_neg hstale]
      have hfresh : p.marketDataStale = false := Bool.not_eq_true _ ▸ hstale
      simp only [hfresh, true_and]

theorem onClock_cases (now : Timestamp) :
    p.onClock now = p ∨
    (∃ ts, p.lastEventTs = some ts ∧ wrapI64 (now - ts) > p.staleThreshold ∧
      p.marketDataStale = false ∧ p.onClock now = p.alarmed.cancelRestingQuotes now) := by
  rw [onClock_eq]
  split_ifs with hs
  · rw [silent, Bool.and_eq_true, Bool.not_eq_true', Option.any_eq_true] at hs
    obtain ⟨hstale, ts, hts, hnow⟩ := hs
    exact .inr ⟨ts, hts, by simpa using hnow, hstale, rfl⟩
  · exact .inl rfl

end Pipeline

end Lob
