import LobMarketMaker.Pipeline.History

/-!
# Delivery at least once

* `delivered`, `runningMaxima`: the events of a list of calls, and the calls without the events
  that do not exceed every earlier sequence number;
* `recount`: a pipeline with the two counters of a delivery replaced, which no stage reads;
* **`exactly_once`**: duplicates and late events leave nothing behind but those counters.
-/

set_option autoImplicit false

namespace Lob

open Foundation

/-- The event a call delivers. -/
def Call.event : Call → Option MarketEvent
  | .process ev => some ev
  | .onClock _ => none

/-- The events that calls deliver. -/
def delivered (calls : List Call) : List MarketEvent := calls.filterMap Call.event

/-- The calls after the events `heard`, less every event that does not exceed the sequence numbers
of all earlier ones. -/
def runningMaxima : List MarketEvent → List Call → List Call
  | _, [] => []
  | heard, .process ev :: calls =>
    if ∀ e ∈ heard, e.sequence < ev.sequence then
      .process ev :: runningMaxima (ev :: heard) calls
    else runningMaxima (ev :: heard) calls
  | heard, .onClock now :: calls => .onClock now :: runningMaxima heard calls

namespace Pipeline

variable {F : Type} [Double F]

/-- The pipeline with the counters of its deliveries replaced. -/
def recount (p : Pipeline F) (processed dropped : ℕ) : Pipeline F :=
  { p with
    stats := { p.stats with eventsProcessed := processed, outOfOrderDropped := dropped } }

/-! ## No stage reads the counters -/

section Stages

variable (host : Host F) (p : Pipeline F) (n k : ℕ)

theorem recount_setResting (s : BookSide) (q : Option RestingQuote) :
    (p.recount n k).setResting s q = (p.setResting s q).recount n k := by cases s <;> rfl

theorem recount_resting (s : BookSide) : (p.recount n k).resting s = p.resting s := by
  cases s <;> rfl

theorem recount_stageClock : (p.recount n k).stageClock host =
    ((p.stageClock host).1, (p.stageClock host).2.recount n k) := by
  unfold stageClock
  show (if p.profileStages then _ else _) = _
  split_ifs <;> rfl

theorem recount_cancelSide (s : BookSide) (now : Timestamp) :
    (p.recount n k).cancelSide s now = (p.cancelSide s now).recount n k := by
  unfold cancelSide
  rw [recount_resting]
  cases p.resting s with
  | none => rfl
  | some quote => cases s <;> rfl

theorem recount_cancelRestingQuotes (now : Timestamp) :
    (p.recount n k).cancelRestingQuotes now = (p.cancelRestingQuotes now).recount n k := by
  unfold cancelRestingQuotes
  rw [recount_cancelSide, recount_cancelSide]

theorem recount_intake (ev : MarketEvent) :
    (p.recount n k).intake ev = (p.intake ev).recount n k := by
  have ht : (p.recount n k).track ev = (p.track ev).recount n k := rfl
  unfold intake resync
  show (if p.gap ev || p.stale ev then _ else _) = _
  rw [ht, recount_cancelRestingQuotes]
  split_ifs <;> rfl

theorem recount_applyReport (r : ExecutionReport) :
    (p.recount n k).applyReport r = (p.applyReport r).recount n k := by
  unfold applyReport
  dsimp only [recount]
  split_ifs <;> rfl

theorem recount_foldl_applyReport (rs : List ExecutionReport) :
    rs.foldl applyReport (p.recount n k) = (rs.foldl applyReport p).recount n k := by
  induction rs generalizing p with
  | nil => rfl
  | cons r rs ih => rw [List.foldl_cons, List.foldl_cons, recount_applyReport, ih]

theorem recount_mark : (p.recount n k).mark = p.mark.recount n k := by
  have hmid : (p.recount n k).book.midPrice = (p.book.midPrice : Option F) := rfl
  unfold mark
  rw [hmid]
  cases (p.book.midPrice : Option F) <;> rfl

theorem recount_execute (ev : MarketEvent) :
    (p.recount n k).execute host ev = (p.execute host ev).recount n k := by
  unfold execute takeFills
  rw [← recount_mark, ← recount_foldl_applyReport]
  rfl

theorem recount_recordStages (t0 t1 : ℤ) :
    (p.recount n k).recordStages host t0 t1 = (p.recordStages host t0 t1).recount n k := by
  unfold recordStages
  show (if p.profileStages then _ else _) = _
  split_ifs <;> rfl

theorem recount_submit (s : BookSide) (price : Price) (size : Quantity) (ref : F)
    (now : Timestamp) : (p.recount n k).submit host s price size ref now =
      (p.submit host s price size ref now).recount n k := by
  unfold submit
  have hr : (p.recount n k).riskRecord s size ref = p.riskRecord s size ref := rfl
  rw [hr]
  dsimp only
  split_ifs
  · rfl
  · rw [← recount_setResting]
    rfl

theorem recount_withdraw (s : BookSide) (qd : QuoteDecision) (now : Timestamp) :
    (p.recount n k).withdraw s qd now = (p.withdraw s qd now).recount n k := by
  unfold withdraw
  rw [recount_cancelSide]
  split_ifs <;> rfl

theorem recount_replace (s : BookSide) (qd : QuoteDecision) (ref : F) (ticks : ℤ)
    (now : Timestamp) : (p.recount n k).replace host s qd ref ticks now =
      (p.replace host s qd ref ticks now).recount n k := by
  unfold replace
  rw [recount_resting, recount_cancelSide, recount_submit]
  split_ifs <;> rfl

theorem recount_requote (now : Timestamp) :
    (p.recount n k).requote host now = (p.requote host now).recount n k := by
  have hs (q : Pipeline F) :
      (q.recount n k).requoteSides host now = (q.requoteSides host now).recount n k := by
    unfold requoteSides
    dsimp only
    rw [← recount_replace, ← recount_replace, ← recount_withdraw, ← recount_withdraw]
    rfl
  have hr : (p.recount n k).readClock host =
      ((p.readClock host).1, (p.readClock host).2.recount n k) := rfl
  unfold requote
  rw [hr]
  dsimp only
  rw [hs]
  rfl

theorem recount_settle (ev : MarketEvent) :
    (p.recount n k).settle host ev = (p.settle host ev).recount n k := by
  unfold settle
  show (if p.book.crossed then _ else _) = _
  rw [recount_requote]
  split_ifs
  · rw [← recount_cancelRestingQuotes]
    rfl
  · rfl
  · rfl

end Stages

/-! ## One call -/

variable {host : Host F} {p : Pipeline F} {ev : MarketEvent}

theorem recount_onClock (p : Pipeline F) (n k : ℕ) (now : Timestamp) :
    (p.recount n k).onClock now = (p.onClock now).recount n k := by
  have hs : (p.recount n k).silent now = p.silent now := rfl
  rw [onClock_eq, onClock_eq, hs]
  split_ifs
  · rw [← recount_cancelRestingQuotes]
    rfl
  · rfl

theorem recount_unsettled (p : Pipeline F) (n k : ℕ) (ev : MarketEvent) :
    (p.recount n k).unsettled host ev = (p.unsettled host ev).recount n k := by
  have ho (q : Pipeline F) :
      (q.recount n k).observe host ev = (q.observe host ev).recount n k := rfl
  unfold unsettled
  rw [recount_intake, recount_stageClock]
  dsimp only
  rw [ho, recount_stageClock]
  dsimp only
  rw [recount_execute, recount_recordStages]

theorem recount_process (h : p.outOfOrder ev = false) (n k : ℕ) :
    (p.recount n k).process host ev = (p.process host ev).recount (n + 1) k := by
  have hc : (p.recount n k).counted = p.counted.recount (n + 1) k := rfl
  rw [process_accepted (p := p.recount n k) h, process_accepted h, hc, recount_unsettled,
    recount_settle]

theorem recount_dropped (host : Host F) (h : p.outOfOrder ev = true) (n k : ℕ) :
    (p.recount n k).process host ev = p.recount (n + 1) (k + 1) := by
  rw [process_dropped (p := p.recount n k) h]
  rfl

/-! ## Runs -/

/-- The sequence tracker stands at the greatest of the sequence numbers heard. -/
def Caught (heard : List MarketEvent) (p : Pipeline F) : Prop :=
  ∀ ev : MarketEvent, p.outOfOrder ev = true ↔ ∃ e ∈ heard, ev.sequence ≤ e.sequence

variable {heard : List MarketEvent}

theorem caught_new (symbol : Symbol) (cfg : PipelineConfig F) : Caught [] (new symbol cfg) := by
  intro ev
  simp [outOfOrder, new]

theorem Caught.congr {q : Pipeline F} (h : Caught heard p) (hq : q.lastSequence = p.lastSequence) :
    Caught heard q := by
  intro ev
  rw [outOfOrder, hq]
  exact h ev

theorem Caught.outOfOrder_iff (h : Caught heard p) :
    p.outOfOrder ev = false ↔ ∀ e ∈ heard, e.sequence < ev.sequence := by
  rw [← Bool.not_eq_true, h ev, not_exists]
  exact forall_congr' fun e => by rw [not_and, not_le]

theorem Caught.accepted (host : Host F) (h : Caught heard p) (hev : p.outOfOrder ev = false) :
    Caught (ev :: heard) (p.process host ev) := by
  have hlt := h.outOfOrder_iff.mp hev
  intro e
  rw [outOfOrder, (heard_process host hev).lastSequence, Option.any_some, decide_eq_true_eq,
    List.exists_mem_cons_iff]
  refine ⟨.inl, fun hor => hor.elim id ?_⟩
  rintro ⟨e', he', hle⟩
  exact hle.trans (hlt e' he').le

theorem Caught.dropped (h : Caught heard p) (hev : p.outOfOrder ev = true) :
    Caught (ev :: heard) p := by
  obtain ⟨e', he', hle'⟩ := (h ev).mp hev
  intro e
  rw [h e, List.exists_mem_cons_iff]
  refine ⟨.inr, fun hor => hor.elim (fun hle => ⟨e', he', hle.trans hle'⟩) id⟩

/-- **Run lemma.** The run that hears every call stays equal, up to the two counters, to the run
that hears the running maxima only. -/
theorem run_runningMaxima (host : Host F) (calls : List Call) {heard : List MarketEvent}
    {p : Pipeline F} (hp : Caught heard p) (n k : ℕ) :
    ∃ d, d + (delivered (runningMaxima heard calls)).length = (delivered calls).length ∧
      run (call host) (p.recount n k) calls =
        (run (call host) p (runningMaxima heard calls)).recount
          (n + (delivered calls).length) (k + d) := by
  induction calls generalizing heard p n k with
  | nil => exact ⟨0, rfl, rfl⟩
  | cons c calls ih =>
    cases c with
    | onClock now =>
      have hq : Caught heard (p.onClock now) := hp.congr (SameTrackers.onClock p now).lastSequence
      obtain ⟨d, hd, hrun⟩ := ih hq n k
      refine ⟨d, hd, ?_⟩
      rw [← recount_onClock] at hrun
      exact hrun
    | process ev =>
      cases hev : p.outOfOrder ev with
      | false =>
        rw [runningMaxima, if_pos (hp.outOfOrder_iff.mp hev)]
        obtain ⟨d, hd, hrun⟩ := ih (hp.accepted host hev) (n + 1) k
        rw [← recount_process hev, Nat.succ_add] at hrun
        exact ⟨d, congrArg Nat.succ hd, hrun⟩
      | true =>
        have hlt : ¬ ∀ e ∈ heard, e.sequence < ev.sequence := by
          rw [← hp.outOfOrder_iff, hev]
          exact Bool.noConfusion
        rw [runningMaxima, if_neg hlt]
        obtain ⟨d, hd, hrun⟩ := ih (hp.dropped hev) (n + 1) (k + 1)
        rw [← recount_dropped host hev, Nat.succ_add, Nat.succ_add] at hrun
        exact ⟨d + 1, (Nat.succ_add _ _).trans (congrArg Nat.succ hd), hrun⟩

/-- **At-least-once delivery equals exactly-once.** Duplicates and late events change the count of
the events and the count of the dropped ones, and nothing else. -/
theorem exactly_once (host : Host F) (symbol : Symbol) (cfg : PipelineConfig F)
    (calls : List Call) :
    let p := after host symbol cfg calls
    let q := after host symbol cfg (runningMaxima [] calls)
    p = q.recount p.stats.eventsProcessed p.stats.outOfOrderDropped ∧
      p.stats.eventsProcessed = (delivered calls).length ∧
      p.stats.outOfOrderDropped + (delivered (runningMaxima [] calls)).length =
        (delivered calls).length := by
  obtain ⟨d, hd, hrun⟩ := run_runningMaxima host calls (caught_new symbol cfg) 0 0
  have hp : after host symbol cfg calls =
      (after host symbol cfg (runningMaxima [] calls)).recount (delivered calls).length d := by
    rw [Nat.zero_add, Nat.zero_add] at hrun
    exact hrun
  dsimp only
  rw [hp]
  exact ⟨rfl, rfl, hd⟩

end Pipeline

end Lob
