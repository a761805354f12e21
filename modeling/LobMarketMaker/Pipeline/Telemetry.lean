import LobMarketMaker.Foundation.AdjacentPairs
import LobMarketMaker.Pipeline.Redelivery

/-!
# What the counters count

* `Telemetry`: the feed's counters and the sample counts of the latency histograms; no operation of
  the desk moves them;
* `telemetry_process`, `telemetry_onClock`: one call;
* `tally`: the accepted events of a run that end in a state of a kind;
* **`telemetry_exact`**: every counter of a run in terms of the accepted events.
-/

set_option autoImplicit false

namespace Lob

open Foundation

/-- The counters of the feed, the sizes of the latency samples, and the switch of the profiler. -/
@[ext] structure Telemetry where
  eventsProcessed : ℕ
  outOfOrderDropped : ℕ
  sequenceGaps : ℕ
  staleResets : ℕ
  clockStaleEvents : ℕ
  crossedBookEvents : ℕ
  decisions : ℕ
  bookUpdates : ℕ
  executions : ℕ
  profileStages : Bool

namespace Pipeline

variable {F : Type} [Double F]

/-- The counters of the feed and the numbers of latencies recorded. -/
def telemetry (p : Pipeline F) : Telemetry where
  eventsProcessed := p.stats.eventsProcessed
  outOfOrderDropped := p.stats.outOfOrderDropped
  sequenceGaps := p.stats.sequenceGaps
  staleResets := p.stats.staleResets
  clockStaleEvents := p.stats.clockStaleEvents
  crossedBookEvents := p.stats.crossedBookEvents
  decisions := p.stats.decisionLatency.count
  bookUpdates := p.stats.bookUpdateLatency.count
  executions := p.stats.executionLatency.count
  profileStages := p.profileStages

/-! ## The desk -/

section Desk

variable (host : Host F) (p : Pipeline F)

@[simp] theorem telemetry_setResting (s : BookSide) (q : Option RestingQuote) :
    (p.setResting s q).telemetry = p.telemetry := by cases s <;> rfl

@[simp] theorem telemetry_cancelSide (s : BookSide) (now : Timestamp) :
    (p.cancelSide s now).telemetry = p.telemetry := by
  unfold cancelSide
  split
  · rfl
  · exact telemetry_setResting _ _ _

@[simp] theorem telemetry_cancelRestingQuotes (now : Timestamp) :
    (p.cancelRestingQuotes now).telemetry = p.telemetry :=
  (telemetry_cancelSide _ .ask now).trans (telemetry_cancelSide p .bid now)

theorem telemetry_applyReport (r : ExecutionReport) :
    (p.applyReport r).telemetry = p.telemetry := by
  rw [applyReport_eq]
  rfl

theorem telemetry_foldl_applyReport (rs : List ExecutionReport) :
    (rs.foldl applyReport p).telemetry = p.telemetry := by
  induction rs generalizing p with
  | nil => rfl
  | cons r rs ih => exact (ih _).trans (telemetry_applyReport p r)

@[simp] theorem telemetry_execute (ev : MarketEvent) :
    (p.execute host ev).telemetry = p.telemetry := by
  have hmark : ∀ q : Pipeline F, q.mark.telemetry = q.telemetry := by
    intro q
    unfold mark
    split <;> rfl
  exact (hmark _).trans (telemetry_foldl_applyReport _ _)

theorem telemetry_submit (s : BookSide) (price : Price) (size : Quantity) (ref : F)
    (now : Timestamp) : (p.submit host s price size ref now).telemetry = p.telemetry := by
  unfold submit
  dsimp only
  split_ifs
  · rfl
  · exact telemetry_setResting _ _ _

theorem telemetry_withdraw (s : BookSide) (qd : QuoteDecision) (now : Timestamp) :
    (p.withdraw s qd now).telemetry = p.telemetry := by
  unfold withdraw
  split_ifs
  · rfl
  · exact telemetry_cancelSide p s now

theorem telemetry_replace (s : BookSide) (qd : QuoteDecision) (ref : F) (ticks : ℤ)
    (now : Timestamp) : (p.replace host s qd ref ticks now).telemetry = p.telemetry := by
  unfold replace
  split_ifs
  · exact (telemetry_submit host _ s _ _ _ _).trans (telemetry_cancelSide p s now)
  · rfl

theorem telemetry_requoteSides (now : Timestamp) :
    (p.requoteSides host now).telemetry = p.telemetry :=
  requoteSides_rule (A := fun q => q.telemetry = p.telemetry)
    (fun q s _ h => (telemetry_withdraw q s _ now).trans h)
    (fun q s _ h => (telemetry_replace host q s _ _ _ now).trans h) rfl

end Desk

/-! ## One call -/

variable {host : Host F} {p : Pipeline F} {ev : MarketEvent}

theorem telemetry_requote (host : Host F) (p : Pipeline F) (now : Timestamp) :
    (p.requote host now).telemetry =
      { p.telemetry with decisions := p.telemetry.decisions + 1 } := by
  have h := telemetry_requoteSides host (p.readClock host).2 now
  have hread : (p.readClock host).2.telemetry = p.telemetry := rfl
  rw [hread] at h
  rw [← h]
  rfl

theorem telemetry_stageClock (host : Host F) (p : Pipeline F) :
    (p.stageClock host).2.telemetry = p.telemetry := by
  unfold stageClock
  split_ifs <;> rfl

theorem telemetry_intake (p : Pipeline F) (ev : MarketEvent) : (p.intake ev).telemetry =
    { p.telemetry with
      sequenceGaps := p.telemetry.sequenceGaps + (p.gap ev).toNat
      staleResets := p.telemetry.staleResets + (p.stale ev).toNat } := by
  have htrack : (p.track ev).telemetry =
      { p.telemetry with
        sequenceGaps := p.telemetry.sequenceGaps + (p.gap ev).toNat
        staleResets := p.telemetry.staleResets + (p.stale ev).toNat } := by
    unfold track telemetry
    cases p.gap ev <;> cases p.stale ev <;> rfl
  have hresync : ((p.track ev).resync ev.timestamp).telemetry = (p.track ev).telemetry :=
    telemetry_cancelRestingQuotes (p.track ev) ev.timestamp
  unfold intake
  split_ifs
  · exact hresync.trans htrack
  · exact htrack

theorem telemetry_recordStages (host : Host F) (p : Pipeline F) (t0 t1 : ℤ) :
    (p.recordStages host t0 t1).telemetry =
      { p.telemetry with
        bookUpdates := p.telemetry.bookUpdates + p.profileStages.toNat
        executions := p.telemetry.executions + p.profileStages.toNat } := by
  unfold recordStages
  cases hp : p.profileStages with
  | true => rfl
  | false => exact Telemetry.ext rfl rfl rfl rfl rfl rfl rfl rfl rfl rfl

/-- The pipeline requotes after the event. -/
def requotes (p : Pipeline F) (ev : MarketEvent) : Bool := !p.book.crossed && bookChanged ev

theorem telemetry_settle (host : Host F) (p : Pipeline F) (ev : MarketEvent) :
    (p.settle host ev).telemetry =
      { p.telemetry with
        crossedBookEvents := p.telemetry.crossedBookEvents + p.book.crossed.toNat
        decisions := p.telemetry.decisions + (p.requotes ev).toNat } := by
  unfold settle requotes
  cases hc : p.book.crossed with
  | true =>
    rw [if_pos rfl, telemetry_cancelRestingQuotes]
    rfl
  | false =>
    rw [if_neg Bool.false_ne_true]
    cases hb : bookChanged ev with
    | true =>
      rw [if_pos rfl, telemetry_requote]
      rfl
    | false =>
      rw [if_neg Bool.false_ne_true]
      rfl

theorem telemetry_process (host : Host F) (h : p.outOfOrder ev = false) :
    (p.process host ev).telemetry =
      { p.telemetry with
        eventsProcessed := p.telemetry.eventsProcessed + 1
        sequenceGaps := p.telemetry.sequenceGaps + (p.gap ev).toNat
        staleResets := p.telemetry.staleResets + (p.stale ev).toNat
        crossedBookEvents :=
          p.telemetry.crossedBookEvents + (p.process host ev).book.crossed.toNat
        decisions := p.telemetry.decisions + ((p.process host ev).requotes ev).toNat
        bookUpdates := p.telemetry.bookUpdates + p.profileStages.toNat
        executions := p.telemetry.executions + p.profileStages.toNat } := by
  have hbook : (p.process host ev).book = (p.counted.unsettled host ev).book := by
    rw [process_accepted h]
    exact (SameFeed.settle host _ ev).book
  have hunsettled : (p.counted.unsettled host ev).telemetry =
      { p.telemetry with
        eventsProcessed := p.telemetry.eventsProcessed + 1
        sequenceGaps := p.telemetry.sequenceGaps + (p.gap ev).toNat
        staleResets := p.telemetry.staleResets + (p.stale ev).toNat
        bookUpdates := p.telemetry.bookUpdates + p.profileStages.toNat
        executions := p.telemetry.executions + p.profileStages.toNat } := by
    -- the stages before the profiler's records, which look at the switch only
    have hstages : ((((((p.counted.intake ev).stageClock host).2.observe host ev).stageClock
        host).2).execute host ev).telemetry = (p.counted.intake ev).telemetry := by
      rw [telemetry_execute, telemetry_stageClock]
      exact telemetry_stageClock host _
    have hprofile := congrArg Telemetry.profileStages hstages
    rw [telemetry_intake] at hstages hprofile
    unfold unsettled
    dsimp only
    rw [telemetry_recordStages, hstages]
    change Pipeline.profileStages _ = p.profileStages at hprofile
    rw [hprofile]
    rfl
  unfold requotes
  rw [hbook, process_accepted h, telemetry_settle, hunsettled]
  rfl

theorem telemetry_dropped (host : Host F) (h : p.outOfOrder ev = true) :
    (p.process host ev).telemetry =
      { p.telemetry with
        eventsProcessed := p.telemetry.eventsProcessed + 1
        outOfOrderDropped := p.telemetry.outOfOrderDropped + 1 } := by
  rw [process_dropped h]
  rfl

theorem telemetry_onClock (p : Pipeline F) (now : Timestamp) :
    (p.onClock now).telemetry =
      { p.telemetry with
        clockStaleEvents := p.telemetry.clockStaleEvents + (p.silent now).toNat } := by
  rw [onClock_eq]
  cases p.silent now with
  | true =>
    rw [if_pos rfl, telemetry_cancelRestingQuotes]
    rfl
  | false =>
    rw [if_neg Bool.false_ne_true]
    rfl

/-! ## Runs -/

variable (host) in
/-- The accepted events of a run that, in the state they lead to, are of the kind. -/
def tally (kind : Pipeline F → MarketEvent → Bool) (p : Pipeline F) : List Call → ℕ
  | [] => 0
  | .process ev :: calls =>
    (!p.outOfOrder ev && kind (p.process host ev) ev).toNat + tally kind (p.process host ev) calls
  | .onClock now :: calls => tally kind (p.onClock now) calls

theorem tally_append (kind : Pipeline F → MarketEvent → Bool) (p : Pipeline F)
    (calls calls' : List Call) : p.tally host kind (calls ++ calls') =
      p.tally host kind calls + (run (call host) p calls).tally host kind calls' := by
  induction calls generalizing p with
  | nil => exact (Nat.zero_add _).symm
  | cons c calls ih =>
    cases c with
    | process ev =>
      rw [List.cons_append, tally, tally, ih, Nat.add_assoc]
      rfl
    | onClock now =>
      rw [List.cons_append, tally, tally, ih]
      rfl

/-- The sequence numbers leave something out. -/
def gapBetween (a b : MarketEvent) : Bool := b.sequence ≠ a.sequence + 1

/-- The timestamps are further apart than the threshold, by their `int64_t` difference. -/
def silenceBetween (threshold : Timestamp) (a b : MarketEvent) : Bool :=
  wrapI64 (b.timestamp - a.timestamp) > threshold

/-- The counters after the deliveries `ds`, of which `acc` were accepted, with so many crossed books
and requotes among them. -/
structure Counted (threshold : Timestamp) (profiled : Bool) (ds acc : List MarketEvent)
    (crossed decisions : ℕ) (t : Telemetry) : Prop where
  eventsProcessed : t.eventsProcessed = ds.length
  outOfOrderDropped : t.outOfOrderDropped + acc.length = ds.length
  sequenceGaps : t.sequenceGaps = breaks gapBetween acc
  staleResets : t.staleResets = breaks (silenceBetween threshold) acc
  crossedBookEvents : t.crossedBookEvents = crossed
  decisions : t.decisions = decisions
  bookUpdates : t.bookUpdates = if profiled then acc.length else 0
  executions : t.executions = if profiled then acc.length else 0
  profileStages : t.profileStages = profiled

section Step

variable {threshold : Timestamp} {profiled : Bool} {ds acc : List MarketEvent}
  {crossed decisions : ℕ}

theorem Counted.onClock (h : Counted threshold profiled ds acc crossed decisions p.telemetry)
    (now : Timestamp) :
    Counted threshold profiled ds acc crossed decisions (p.onClock now).telemetry := by
  rw [telemetry_onClock]
  exact { h with }

theorem Counted.dropped (h : Counted threshold profiled ds acc crossed decisions p.telemetry)
    (host : Host F) (hd : p.outOfOrder ev = true) :
    Counted threshold profiled (ds ++ [ev]) acc crossed decisions
      (p.process host ev).telemetry := by
  rw [telemetry_dropped host hd]
  have hlen : (ds ++ [ev]).length = ds.length + 1 := List.length_append
  have h₁ := h.eventsProcessed
  have h₂ := h.outOfOrderDropped
  exact { h with
    eventsProcessed := by rw [hlen, ← h₁]
    outOfOrderDropped := by rw [hlen, ← h₂, Nat.add_right_comm] }

/-- **Accepting an event**, on trackers that stand at the last accepted one. -/
theorem Counted.accepted (h : Counted threshold profiled ds acc crossed decisions p.telemetry)
    (host : Host F) (hd : p.outOfOrder ev = false)
    (hseq : p.lastSequence = acc.getLast?.map MarketEvent.sequence)
    (hts : p.lastEventTs = acc.getLast?.map MarketEvent.timestamp)
    (hthreshold : p.staleThreshold = threshold) :
    Counted threshold profiled (ds ++ [ev]) (acc ++ [ev])
      (crossed + (p.process host ev).book.crossed.toNat)
      (decisions + ((p.process host ev).requotes ev).toNat) (p.process host ev).telemetry := by
  have hgap : p.gap ev = acc.getLast?.any (gapBetween · ev) := by
    unfold gap
    rw [hseq, Option.any_map]
    rfl
  have hstale : p.stale ev = acc.getLast?.any (silenceBetween threshold · ev) := by
    unfold stale
    rw [hts, hthreshold, Option.any_map]
    rfl
  have hone : ∀ b : Bool, b.toNat = if b then 1 else 0 := fun b => by cases b <;> rfl
  have hlen : (ds ++ [ev]).length = ds.length + 1 := List.length_append
  have hlen' : (acc ++ [ev]).length = acc.length + 1 := List.length_append
  have hprofile : p.profileStages = profiled := h.profileStages
  have hsamples : (if profiled then acc.length else 0) + profiled.toNat =
      if profiled then (acc ++ [ev]).length else 0 := by
    cases profiled with
    | true => exact hlen'.symm
    | false => rfl
  rw [telemetry_process host hd]
  constructor <;> dsimp only
  · rw [h.eventsProcessed, hlen]
  · rw [hlen, hlen', ← h.outOfOrderDropped, Nat.add_assoc]
  · rw [breaks_concat, h.sequenceGaps, hgap, hone]
  · rw [breaks_concat, h.staleResets, hstale, hone]
  · rw [h.crossedBookEvents]
  · rw [h.decisions]
  · rw [h.bookUpdates, hprofile, hsamples]
  · rw [h.executions, hprofile, hsamples]
  · exact h.profileStages

end Step

/-- **Run lemma.** -/
theorem counted_after (host : Host F) (symbol : Symbol) (cfg : PipelineConfig F)
    (calls : List Call) :
    Counted (new symbol cfg).staleThreshold cfg.profileStages (delivered calls)
      ((new symbol cfg).accepted host calls)
      ((new symbol cfg).tally host (fun q _ => q.book.crossed) calls)
      ((new symbol cfg).tally host requotes calls) (after host symbol cfg calls).telemetry := by
  induction calls using List.reverseRecOn with
  | nil =>
    have hzero : (if cfg.profileStages then 0 else 0) = 0 := ite_self 0
    exact ⟨rfl, rfl, rfl, rfl, rfl, rfl, hzero.symm, hzero.symm, rfl⟩
  | append_singleton calls c ih =>
    have ht := after_trackers host symbol cfg calls
    have hdelivered : delivered (calls ++ [c]) = delivered calls ++ delivered [c] :=
      List.filterMap_append
    rw [hdelivered, accepted_append, tally_append, tally_append, after, run_concat]
    change Counted _ _ _ _ _ _ (run (call host) _ calls).telemetry at ih
    change Trackers _ _ (run (call host) _ calls) at ht
    generalize run (call host) (new symbol cfg) calls = p at ih ht ⊢
    cases c with
    | onClock now =>
      have hd : delivered [.onClock now] = [] := rfl
      rw [hd, List.append_nil, Pipeline.accepted, Pipeline.accepted, List.append_nil, tally, tally,
        tally, tally, Nat.add_zero, Nat.add_zero]
      exact ih.onClock now
    | process ev =>
      have hd : delivered [.process ev] = [ev] := rfl
      rw [hd, Pipeline.accepted, Pipeline.accepted, tally, tally, tally, tally, Nat.add_zero,
        Nat.add_zero]
      by_cases ho : p.outOfOrder ev = true
      · rw [if_pos ho, ho, List.append_nil]
        exact ih.dropped host ho
      · have hf : p.outOfOrder ev = false := Bool.eq_false_iff.mpr ho
        rw [if_neg ho, hf]
        exact ih.accepted host hf ht.lastSequence ht.lastEventTs ht.staleThreshold

/-- **What the counters count.** After every run: each delivery is dropped or accepted; the gaps and
the stale resets are the places between neighbouring accepted events where a number is missing and
where the `int64_t` difference of the timestamps is too large; every accepted event finds the book
crossed, or is requoted, or leaves the book alone; and the profiler has one sample of each stage for
each accepted event, or none at all. -/
theorem telemetry_exact (host : Host F) (symbol : Symbol) (cfg : PipelineConfig F)
    (calls : List Call) :
    let st := (after host symbol cfg calls).stats
    let acc := (new symbol cfg).accepted host calls
    st.eventsProcessed = (delivered calls).length ∧
    st.outOfOrderDropped + acc.length = (delivered calls).length ∧
    st.sequenceGaps = breaks gapBetween acc ∧
    st.staleResets = breaks (silenceBetween (new symbol cfg).staleThreshold) acc ∧
    st.crossedBookEvents = (new symbol cfg).tally host (fun q _ => q.book.crossed) calls ∧
    st.decisionLatency.count = (new symbol cfg).tally host requotes calls ∧
    st.bookUpdateLatency.count = (if cfg.profileStages then acc.length else 0) ∧
    st.executionLatency.count = if cfg.profileStages then acc.length else 0 := by
  intro st acc
  have h := counted_after host symbol cfg calls
  exact ⟨h.eventsProcessed, h.outOfOrderDropped, h.sequenceGaps, h.staleResets,
    h.crossedBookEvents, h.decisions, h.bookUpdates, h.executions⟩

end Pipeline

end Lob
