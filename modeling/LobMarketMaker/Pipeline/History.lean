import LobMarketMaker.Pipeline.Stages

/-!
# What a pipeline has heard

* `accepted`: the events of a list of calls that were not dropped;
* `Heard p ev q`: `q` is `p` with its trackers at the event `ev`;
* **`after_trackers`**: the trackers stand at the last accepted event.
-/

set_option autoImplicit false

namespace Lob

open Foundation

namespace Pipeline

variable {F : Type} [Double F]

/-! ## One call -/

/-- The trackers stand at the event, and the configuration is as it was. -/
structure Heard (p : Pipeline F) (ev : MarketEvent) (q : Pipeline F) : Prop where
  lastSequence : q.lastSequence = some ev.sequence
  lastEventTs : q.lastEventTs = some ev.timestamp
  marketDataStale : q.marketDataStale = false
  staleThreshold : q.staleThreshold = p.staleThreshold
  risk : q.risk = p.risk
  strategy : q.strategy = p.strategy

variable {host : Host F} {p q q' : Pipeline F} {ev : MarketEvent}

theorem Heard.congr (h : Heard p ev q) (hq : SameFeed q q') : Heard p ev q' where
  lastSequence := hq.lastSequence.trans h.lastSequence
  lastEventTs := hq.lastEventTs.trans h.lastEventTs
  marketDataStale := hq.marketDataStale.trans h.marketDataStale
  staleThreshold := hq.staleThreshold.trans h.staleThreshold
  risk := hq.risk.trans h.risk
  strategy := hq.strategy.trans h.strategy

theorem blind_heard : Blind (Heard p ev) := blind_of (fun _ h => { h with }) (fun _ h => { h with })

theorem heard_intake (p : Pipeline F) (ev : MarketEvent) : Heard p ev (p.counted.intake ev) := by
  have ht : Heard p ev (p.counted.track ev) := ⟨rfl, rfl, rfl, rfl, rfl, rfl⟩
  unfold intake
  split_ifs
  · have hc := ht.congr (SameMarket.cancelRestingQuotes _ ev.timestamp).toSameFeed
    exact { hc with }
  · exact ht

theorem Heard.observe (h : Heard p ev q) (host : Host F) : Heard p ev (q.observe host ev) :=
  { h with }

/-- **An accepted event** moves the trackers. -/
theorem heard_process (host : Host F) (h : p.outOfOrder ev = false) : Heard p ev (p.process host ev) :=
  process_rule blind_heard blind_heard blind_heard h (heard_intake p ev)
    (fun _ hq => hq.observe host) (fun q hq => hq.congr (.execute host q ev))
    (fun q hq => hq.congr (.settle host q ev))

/-! ## Runs -/

variable (host) in
/-- The events that are not dropped, oldest first. -/
def accepted (p : Pipeline F) : List Call → List MarketEvent
  | [] => []
  | .process ev :: calls =>
    if p.outOfOrder ev then accepted (p.process host ev) calls
    else ev :: accepted (p.process host ev) calls
  | .onClock now :: calls => accepted (p.onClock now) calls

theorem accepted_append (p : Pipeline F) (calls calls' : List Call) :
    p.accepted host (calls ++ calls') =
      p.accepted host calls ++ (run (call host) p calls).accepted host calls' := by
  induction calls generalizing p with
  | nil => rfl
  | cons c calls ih =>
    cases c with
    | process ev =>
      rw [List.cons_append, accepted, accepted, ih]
      split_ifs
      · rfl
      · rfl
    | onClock now =>
      rw [List.cons_append, accepted, accepted, ih]
      rfl

/-- The pipelines agree on the book, the trackers and the configuration. -/
structure SameTrackers (p q : Pipeline F) : Prop where
  book : q.book = p.book
  lastSequence : q.lastSequence = p.lastSequence
  lastEventTs : q.lastEventTs = p.lastEventTs
  staleThreshold : q.staleThreshold = p.staleThreshold
  risk : q.risk = p.risk
  strategy : q.strategy = p.strategy
  staleResets : q.stats.staleResets = p.stats.staleResets

theorem SameTrackers.of_dropped (h : p.outOfOrder ev = true) :
    SameTrackers p (p.process host ev) := by
  rw [process_dropped h]
  exact ⟨rfl, rfl, rfl, rfl, rfl, rfl, rfl⟩

theorem SameTrackers.onClock (p : Pipeline F) (now : Timestamp) :
    SameTrackers p (p.onClock now) := by
  rcases onClock_cases (p := p) now with h | ⟨ts, -, -, -, h⟩ <;> rw [h]
  · exact ⟨rfl, rfl, rfl, rfl, rfl, rfl, rfl⟩
  · have hm := SameMarket.cancelRestingQuotes
      { p with
        marketDataStale := true
        stats := { p.stats with clockStaleEvents := p.stats.clockStaleEvents + 1 } } now
    exact ⟨hm.book, hm.lastSequence, hm.lastEventTs, hm.staleThreshold, hm.risk, hm.strategy,
      hm.staleResets⟩

/-- The trackers of `q` stand at the last of the events `evs` that `p` has accepted. -/
structure Trackers (p : Pipeline F) (evs : List MarketEvent) (q : Pipeline F) : Prop where
  lastSequence : q.lastSequence = evs.getLast?.map MarketEvent.sequence
  lastEventTs : q.lastEventTs = evs.getLast?.map MarketEvent.timestamp
  staleThreshold : q.staleThreshold = p.staleThreshold
  risk : q.risk = p.risk
  strategy : q.strategy = p.strategy

theorem Trackers.congr {evs : List MarketEvent} (h : Trackers p evs q) (hq : SameTrackers q q') :
    Trackers p evs q' where
  lastSequence := hq.lastSequence.trans h.lastSequence
  lastEventTs := hq.lastEventTs.trans h.lastEventTs
  staleThreshold := hq.staleThreshold.trans h.staleThreshold
  risk := hq.risk.trans h.risk
  strategy := hq.strategy.trans h.strategy

theorem Trackers.call {evs : List MarketEvent} (h : Trackers p evs q) (c : Call) :
    Trackers p (evs ++ q.accepted host [c]) (q.call host c) := by
  cases c with
  | process ev =>
    by_cases hd : q.outOfOrder ev = true
    · rw [accepted, if_pos hd, accepted, List.append_nil]
      exact h.congr (.of_dropped hd)
    · have hh := heard_process host (Bool.eq_false_iff.mpr hd)
      rw [accepted, if_neg hd, accepted]
      refine ⟨?_, ?_, hh.staleThreshold.trans h.staleThreshold, hh.risk.trans h.risk,
        hh.strategy.trans h.strategy⟩
      · rw [List.getLast?_concat]
        exact hh.lastSequence
      · rw [List.getLast?_concat]
        exact hh.lastEventTs
  | onClock now =>
    rw [accepted, accepted, List.append_nil]
    exact h.congr (.onClock q now)

/-- **The trackers stand at the last accepted event.** -/
theorem after_trackers (host : Host F) (symbol : Symbol) (cfg : PipelineConfig F)
    (calls : List Call) :
    Trackers (new symbol cfg) ((new symbol cfg).accepted host calls)
      (after host symbol cfg calls) := by
  induction calls using List.reverseRecOn with
  | nil => exact ⟨rfl, rfl, rfl, rfl, rfl⟩
  | append_singleton calls c ih =>
    rw [accepted_append, after, run_concat]
    exact ih.call c

end Pipeline

end Lob
