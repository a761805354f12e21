import LobMarketMaker.Pipeline.Telemetry

/-!
# Time and profiling

* `Host.withClock`, `Host.frozen`: the host with another clock, and with its clock stopped;
* `timeless`: a pipeline without its clock readings, its latency histograms and the switch of the
  profiler. Each stage on the timeless pipeline and the frozen host does what it does on the others;
* `timeless_process`, `timeless_call`: hosts and pipelines that agree but for these still agree after
  a call;
* `run_delivered`: a run without a clock alarm is the run of its events.
-/

set_option autoImplicit false

namespace Lob

open Foundation

variable {F : Type} [Double F]

/-- The host with another clock. -/
def Host.withClock (host : Host F) (clock : ℕ → ℤ) : Host F := { host with steady := clock }

/-- The host with its clock stopped. -/
def Host.frozen (host : Host F) : Host F := host.withClock fun _ => 0

/-! ## The execution engine -/

namespace PaperExecutionEngine

theorem matchOrders_frozen (host : Host F) (ev : MarketEvent) (os : List (OrderId × Order))
    (e : PaperExecutionEngine F) :
    matchOrders host.frozen ev os e = matchOrders host ev os e := by
  induction os generalizing e with
  | nil => rfl
  | cons x os ih =>
    obtain ⟨id, o⟩ := x
    have hq : e.fillQuantity host.frozen o ev = e.fillQuantity host o ev := rfl
    rw [matchOrders, matchOrders, hq]
    dsimp only
    rw [ih, ih, ih]

theorem onMarketEvent_frozen (host : Host F) (e : PaperExecutionEngine F) (ev : MarketEvent) :
    e.onMarketEvent host.frozen ev = e.onMarketEvent host ev := by
  unfold onMarketEvent
  rw [matchOrders_frozen]

end PaperExecutionEngine

namespace Pipeline

/-- The pipeline without what time and profiling change. -/
def timeless (p : Pipeline F) : Pipeline F := { p.untimed with profileStages := false }

/-! ## The stages -/

section Stages

variable (host : Host F) (p : Pipeline F)

theorem timeless_setResting (s : BookSide) (q : Option RestingQuote) :
    (p.setResting s q).timeless = p.timeless.setResting s q := by cases s <;> rfl

theorem timeless_resting (s : BookSide) : p.timeless.resting s = p.resting s := by cases s <;> rfl

theorem timeless_stageClock : (p.stageClock host).2.timeless = p.timeless := by
  unfold stageClock
  split_ifs <;> rfl

theorem timeless_recordStages (t0 t1 : ℤ) :
    (p.recordStages host t0 t1).timeless = p.timeless := by
  unfold recordStages
  split_ifs <;> rfl

theorem timeless_cancelSide (s : BookSide) (now : Timestamp) :
    (p.cancelSide s now).timeless = p.timeless.cancelSide s now := by
  unfold cancelSide
  rw [timeless_resting]
  cases p.resting s with
  | none => rfl
  | some quote => cases s <;> rfl

theorem timeless_cancelRestingQuotes (now : Timestamp) :
    (p.cancelRestingQuotes now).timeless = p.timeless.cancelRestingQuotes now := by
  unfold cancelRestingQuotes
  rw [timeless_cancelSide, timeless_cancelSide]

theorem timeless_intake (ev : MarketEvent) : (p.intake ev).timeless = p.timeless.intake ev := by
  have ht : p.timeless.track ev = (p.track ev).timeless := rfl
  unfold intake resync
  show _ = if p.gap ev || p.stale ev then _ else _
  rw [ht, ← timeless_cancelRestingQuotes]
  split_ifs <;> rfl

theorem timeless_observe (ev : MarketEvent) :
    (p.observe host ev).timeless = p.timeless.observe host.frozen ev := rfl

theorem timeless_applyReport (r : ExecutionReport) :
    (p.applyReport r).timeless = p.timeless.applyReport r := by
  unfold applyReport
  dsimp only [timeless, untimed]
  split_ifs <;> rfl

theorem timeless_foldl_applyReport (rs : List ExecutionReport) :
    (rs.foldl applyReport p).timeless = rs.foldl applyReport p.timeless := by
  induction rs generalizing p with
  | nil => rfl
  | cons r rs ih => rw [List.foldl_cons, List.foldl_cons, ih, timeless_applyReport]

theorem timeless_mark : p.mark.timeless = p.timeless.mark := by
  have hmid : p.timeless.book.midPrice = (p.book.midPrice : Option F) := rfl
  unfold mark
  rw [hmid]
  cases (p.book.midPrice : Option F) <;> rfl

theorem timeless_execute (ev : MarketEvent) :
    (p.execute host ev).timeless = p.timeless.execute host.frozen ev := by
  unfold execute takeFills
  rw [PaperExecutionEngine.onMarketEvent_frozen, timeless_mark, timeless_foldl_applyReport]
  rfl

theorem timeless_submit (s : BookSide) (price : Price) (size : Quantity) (ref : F)
    (now : Timestamp) : (p.submit host s price size ref now).timeless =
      p.timeless.submit host.frozen s price size ref now := by
  unfold submit
  have hr : p.timeless.riskRecord s size ref = p.riskRecord s size ref := rfl
  rw [hr]
  dsimp only
  split_ifs
  · rfl
  · rw [timeless_setResting]
    rfl

theorem timeless_withdraw (s : BookSide) (qd : QuoteDecision) (now : Timestamp) :
    (p.withdraw s qd now).timeless = p.timeless.withdraw s qd now := by
  unfold withdraw
  rw [← timeless_cancelSide]
  split_ifs <;> rfl

theorem timeless_replace (s : BookSide) (qd : QuoteDecision) (ref : F) (ticks : ℤ)
    (now : Timestamp) : (p.replace host s qd ref ticks now).timeless =
      p.timeless.replace host.frozen s qd ref ticks now := by
  unfold replace
  rw [timeless_resting, ← timeless_cancelSide, ← timeless_submit]
  split_ifs <;> rfl

theorem timeless_requoteSides (now : Timestamp) :
    (p.requoteSides host now).timeless = p.timeless.requoteSides host.frozen now := by
  unfold requoteSides
  dsimp only
  rw [timeless_replace, timeless_replace, timeless_withdraw, timeless_withdraw]
  rfl

theorem timeless_requote (now : Timestamp) :
    (p.requote host now).timeless = p.timeless.requoteSides host.frozen now :=
  timeless_requoteSides host (p.readClock host).2 now

theorem timeless_unsettled (ev : MarketEvent) : (p.unsettled host ev).timeless =
    ((p.timeless.intake ev).observe host.frozen ev).execute host.frozen ev := by
  unfold unsettled
  dsimp only
  rw [timeless_recordStages, timeless_execute, timeless_stageClock, timeless_observe,
    timeless_stageClock, timeless_intake]

theorem timeless_onClock (now : Timestamp) :
    (p.onClock now).timeless = p.timeless.onClock now := by
  have hs : p.timeless.silent now = p.silent now := rfl
  rw [onClock_eq, onClock_eq, hs]
  split_ifs
  · rw [timeless_cancelRestingQuotes]
    rfl
  · rfl

end Stages

/-! ## One call -/

variable {host host' : Host F} {p q : Pipeline F}

theorem timeless_settle (hhost : host.frozen = host'.frozen) (h : p.timeless = q.timeless)
    (ev : MarketEvent) : (p.settle host ev).timeless = (q.settle host' ev).timeless := by
  have hcrossed : p.book.crossed = q.book.crossed := congrArg (fun r => r.book.crossed) h
  have hcounted : ({ p with
      stats := { p.stats with crossedBookEvents := p.stats.crossedBookEvents + 1 } } :
        Pipeline F).timeless = ({ q with
      stats := { q.stats with crossedBookEvents := q.stats.crossedBookEvents + 1 } } :
        Pipeline F).timeless :=
    congrArg (fun r : Pipeline F => { r with
      stats := { r.stats with crossedBookEvents := r.stats.crossedBookEvents + 1 } }) h
  unfold settle
  rw [hcrossed]
  split_ifs
  · rw [timeless_cancelRestingQuotes, timeless_cancelRestingQuotes, hcounted]
  · rw [timeless_requote, timeless_requote, h, hhost]
  · exact h

/-- **An event**, under any two clocks. -/
theorem timeless_process (hhost : host.frozen = host'.frozen) (h : p.timeless = q.timeless)
    (ev : MarketEvent) : (p.process host ev).timeless = (q.process host' ev).timeless := by
  have horder : p.outOfOrder ev = q.outOfOrder ev := congrArg (·.outOfOrder ev) h
  have hcounted : p.counted.timeless = q.counted.timeless := congrArg counted h
  cases ho : p.outOfOrder ev with
  | true =>
    rw [process_dropped ho, process_dropped (horder.symm.trans ho)]
    exact congrArg (fun r : Pipeline F => { r with
      stats :=
        { r.stats with
          eventsProcessed := r.stats.eventsProcessed + 1
          outOfOrderDropped := r.stats.outOfOrderDropped + 1 } }) h
  | false =>
    rw [process_accepted ho, process_accepted (horder.symm.trans ho)]
    refine timeless_settle hhost ?_ ev
    rw [timeless_unsettled, timeless_unsettled, hcounted, hhost]

/-- **Step lemma.** -/
theorem timeless_call (hhost : host.frozen = host'.frozen) (h : p.timeless = q.timeless)
    (c : Call) : (p.call host c).timeless = (q.call host' c).timeless := by
  cases c with
  | process ev => exact timeless_process hhost h ev
  | onClock now =>
    have hclock := congrArg (fun r : Pipeline F => r.onClock now) h
    exact (timeless_onClock p now).trans (hclock.trans (timeless_onClock q now).symm)

theorem timeless_new (symbol : Symbol) (cfg : PipelineConfig F) (profile : Bool) :
    (new symbol { cfg with profileStages := profile }).timeless = (new symbol cfg).timeless := rfl

/-- **Run lemma.** -/
theorem timeless_run (hhost : host.frozen = host'.frozen) (h : p.timeless = q.timeless)
    (calls : List Call) :
    (run (call host) p calls).timeless = (run (call host') q calls).timeless :=
  run_lockstep (call host) (call host') (R := fun p q => p.timeless = q.timeless)
    (fun _ _ c h => timeless_call hhost h c) h calls

/-! ## The clock alarm -/

theorem clockStaleEvents_call (host : Host F) (p : Pipeline F) (c : Call) :
    p.stats.clockStaleEvents ≤ (p.call host c).stats.clockStaleEvents := by
  cases c with
  | process ev =>
    show _ ≤ (p.process host ev).stats.clockStaleEvents
    cases ho : p.outOfOrder ev with
    | true =>
      rw [process_dropped ho]
    | false =>
      have h := congrArg Telemetry.clockStaleEvents (telemetry_process host ho)
      exact Nat.le_of_eq h.symm
  | onClock now =>
    have h : (p.onClock now).stats.clockStaleEvents = _ :=
      congrArg Telemetry.clockStaleEvents (telemetry_onClock p now)
    show _ ≤ (p.onClock now).stats.clockStaleEvents
    rw [h]
    exact Nat.le_add_right _ _

theorem onClock_of_quiet {now : Timestamp} (h : (p.onClock now).stats.clockStaleEvents = 0) :
    p.onClock now = p := by
  have hcount : (p.onClock now).stats.clockStaleEvents = _ :=
    congrArg Telemetry.clockStaleEvents (telemetry_onClock p now)
  rw [h] at hcount
  rw [onClock_eq]
  cases hs : p.silent now with
  | true =>
    rw [hs] at hcount
    exact absurd hcount.symm (Nat.succ_ne_zero _)
  | false => rfl

/-- **A run without an alarm** is the run of its events. -/
theorem run_delivered (host : Host F) (p : Pipeline F) {calls : List Call}
    (h : (run (call host) p calls).stats.clockStaleEvents = 0) :
    run (call host) p calls = run (call host) p ((delivered calls).map .process) := by
  induction calls using List.reverseRecOn with
  | nil => rfl
  | append_singleton calls c ih =>
    have hdelivered : delivered (calls ++ [c]) = delivered calls ++ delivered [c] :=
      List.filterMap_append
    rw [run_concat] at h
    have hle := clockStaleEvents_call host (run (call host) p calls) c
    have hbefore := ih (Nat.le_zero.mp (h ▸ hle))
    rw [run_concat, hdelivered, List.map_append, run_append, ← hbefore]
    cases c with
    | process ev => rfl
    | onClock now => exact onClock_of_quiet h

end Pipeline

end Lob
