import LobMarketMaker.Pipeline.Health
import LobMarketMaker.Pipeline.Telemetry

/-!
# Alarms of the wall clock

The live loop passes wall-clock times, and the first one too far after the last accepted event
raises an alarm. What was alarmed, and how often, can be read off the calls alone: a run falls into
episodes, each an accepted event and the clock times until the next one.

* `Episode`, `hear`, `episodes`: the episodes of a list of calls, newest first;
* `Watched`, `Watched.call`: the trackers, the flag and the counter against the episodes so far;
* **`alarms_exact`**: one alarm for each episode that falls silent.
-/

set_option autoImplicit false

namespace Lob

open Foundation

/-- An accepted event and the clock times passed until the next one, newest first. -/
structure Episode where
  event : MarketEvent
  clocks : List Timestamp

namespace Episode

/-- Some clock time is more than the threshold after the event, by the `int64_t` difference. -/
def silent (threshold : Timestamp) (e : Episode) : Bool :=
  e.clocks.any fun now => wrapI64 (now - e.event.timestamp) > threshold

/-- One more clock time. -/
def tick (now : Timestamp) (e : Episode) : Episode := { e with clocks := now :: e.clocks }

theorem silent_tick (threshold now : Timestamp) (e : Episode) : (e.tick now).silent threshold =
    (decide (wrapI64 (now - e.event.timestamp) > threshold) || e.silent threshold) := rfl

end Episode

/-- An event with a new number starts an episode, a clock time belongs to the newest one. -/
def hear (eps : List Episode) : Call → List Episode
  | .process ev =>
    if eps.head?.any (ev.sequence ≤ ·.event.sequence) then eps else ⟨ev, []⟩ :: eps
  | .onClock now =>
    match eps with
    | [] => []
    | e :: eps => e.tick now :: eps

/-- The episodes of a list of calls, newest first. -/
def episodes (calls : List Call) : List Episode := run hear [] calls

namespace Pipeline

variable {F : Type} [Double F] {host : Host F} {threshold : Timestamp} {p q : Pipeline F}
  {eps : List Episode}

/-- The pipeline has heard these episodes, and raised an alarm in those that fell silent. -/
structure Watched (threshold : Timestamp) (eps : List Episode) (p : Pipeline F) : Prop where
  threshold_eq : p.staleThreshold = threshold
  lastSequence : p.lastSequence = eps.head?.map (·.event.sequence)
  lastEventTs : p.lastEventTs = eps.head?.map (·.event.timestamp)
  flag : p.marketDataStale = eps.head?.any (Episode.silent threshold)
  alarms : p.stats.clockStaleEvents = eps.countP (Episode.silent threshold)

theorem clockStaleEvents_process (host : Host F) (p : Pipeline F) (ev : MarketEvent) :
    (p.process host ev).stats.clockStaleEvents = p.stats.clockStaleEvents := by
  by_cases h : p.outOfOrder ev = true
  · rw [process_dropped h]
  · exact congrArg Telemetry.clockStaleEvents (telemetry_process host (Bool.eq_false_iff.mpr h))

/-- **An event**: a late one changes nothing, any other starts an episode without an alarm. -/
theorem Watched.process (h : Watched threshold eps p) (host : Host F) (ev : MarketEvent) :
    Watched threshold (hear eps (.process ev)) (p.process host ev) := by
  have horder : p.outOfOrder ev = eps.head?.any (ev.sequence ≤ ·.event.sequence) := by
    unfold outOfOrder
    rw [h.lastSequence, Option.any_map]
  have halarms := (clockStaleEvents_process host p ev).trans h.alarms
  by_cases hd : p.outOfOrder ev = true
  · have heps : hear eps (.process ev) = eps := if_pos (horder ▸ hd)
    rw [heps, process_dropped hd]
    exact ⟨h.threshold_eq, h.lastSequence, h.lastEventTs, h.flag, h.alarms⟩
  · have heps : hear eps (.process ev) = ⟨ev, []⟩ :: eps := if_neg (horder ▸ hd)
    have hh := heard_process host (Bool.eq_false_iff.mpr hd)
    rw [heps]
    refine ⟨hh.staleThreshold.trans h.threshold_eq, hh.lastSequence, hh.lastEventTs,
      hh.marketDataStale, halarms.trans ?_⟩
    rw [List.countP_cons_of_neg (by simp [Episode.silent])]

/-- **A clock time** raises the alarm when it is the first one of its episode to be too late. -/
theorem Watched.onClock (h : Watched threshold eps p) (now : Timestamp) :
    Watched threshold (hear eps (.onClock now)) (p.onClock now) := by
  cases eps with
  | nil =>
    have hc : p.onClock now = p := by
      unfold Pipeline.onClock
      rw [h.lastEventTs]
      rfl
    rw [hc]
    exact h
  | cons e eps =>
    have hflag : p.marketDataStale = e.silent threshold := h.flag
    have hsilent : p.silent now =
        (!e.silent threshold && decide (wrapI64 (now - e.event.timestamp) > threshold)) := by
      rw [Pipeline.silent, h.lastEventTs, h.threshold_eq, hflag]
      rfl
    have hs := SameTrackers.onClock p now
    refine ⟨hs.staleThreshold.trans h.threshold_eq, hs.lastSequence.trans h.lastSequence,
      hs.lastEventTs.trans h.lastEventTs, ?_, ?_⟩
    · show (p.onClock now).marketDataStale = (e.tick now).silent threshold
      rw [onClock_eq, hsilent, Episode.silent_tick]
      cases he : e.silent threshold with
      | true =>
        rw [Bool.or_true]
        exact hflag.trans he
      | false =>
        rw [Bool.or_false, Bool.not_false, Bool.true_and]
        cases decide (wrapI64 (now - e.event.timestamp) > threshold) with
        | true =>
          rw [if_pos rfl, (SameMarket.cancelRestingQuotes p.alarmed now).marketDataStale]
          rfl
        | false =>
          rw [if_neg Bool.false_ne_true]
          exact hflag.trans he
    · have hcount : (p.onClock now).stats.clockStaleEvents =
          p.stats.clockStaleEvents + (p.silent now).toNat :=
        congrArg Telemetry.clockStaleEvents (telemetry_onClock p now)
      show _ = (e.tick now :: eps).countP _
      rw [hcount, h.alarms, hsilent, List.countP_cons, List.countP_cons, Episode.silent_tick]
      cases e.silent threshold <;>
        cases decide (wrapI64 (now - e.event.timestamp) > threshold) <;> rfl

theorem Watched.call (h : Watched threshold eps p) (host : Host F) (c : Call) :
    Watched threshold (hear eps c) (p.call host c) := by
  cases c with
  | process ev => exact h.process host ev
  | onClock now => exact h.onClock now

/-- **Alarms are exact.** After any list of calls the number of wall-clock alarms is the number of
accepted events after which, before the next one, some clock time was more than the threshold late
by its `int64_t` difference; the data count as stale exactly if the last accepted event is such a
one; and then no order is open. -/
theorem alarms_exact (host : Host F) (symbol : Symbol) (cfg : PipelineConfig F)
    (calls : List Call) :
    let p := after host symbol cfg calls
    let threshold := (new symbol cfg).staleThreshold
    p.stats.clockStaleEvents = (episodes calls).countP (Episode.silent threshold) ∧
    p.marketDataStale = (episodes calls).head?.any (Episode.silent threshold) ∧
    (p.marketDataStale = true → p.exec.openOrders = []) := by
  intro p threshold
  have h : Watched threshold (episodes calls) p :=
    run_lockstep _ _ (R := fun eps p => Watched threshold eps p)
      (fun _ _ c h => h.call host c) ⟨rfl, rfl, rfl, rfl, rfl⟩ calls
  refine ⟨h.alarms, h.flag, fun hstale => ?_⟩
  obtain ⟨d, hd⟩ := after_shows host symbol cfg calls
  refine hd.eq_nil ((after_healthy host symbol cfg calls).resolve_right fun hq => ?_)
  exact Bool.false_ne_true (hq.2.symm.trans hstale)

end Pipeline

end Lob
