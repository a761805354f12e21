import LobMarketMaker.Foundation.Rat64
import LobMarketMaker.Pipeline.Timeless

/-!
# The replay engine

`ReplayEngine::run` gives the events of a log to its pipeline and, for a positive speed, sleeps
between them.

* `pause`, `turn`, `ReplayEngine.run`: the loop of the code; the calls of `sleep_for` are recorded;
* **`replay_independent`**: neither the speed nor the clock nor the profiler changes what the
  pipeline decides;
* **`pacing_exact`**: how long the pauses are in all.
-/

set_option autoImplicit false

namespace Lob

open Foundation

/-- What `run` returns. -/
structure ReplaySummary (F : Type) [Double F] where
  eventsReplayed : ℕ := 0
  wallClockDuration : ℤ := 0
  eventsPerSecond : F := ofInt 0

/-- The pipeline driven, and a record of the pauses made. -/
structure ReplayEngine (F : Type) [Double F] where
  pipeline : Pipeline F
  /-- What `sleep_for` has been called with. -/
  sleeps : List ℤ := []

/-- The engine with the locals of the loop. -/
structure Replaying (F : Type) [Double F] extends ReplayEngine F where
  lastEventTs : Option Timestamp := none
  eventsReplayed : ℕ := 0

namespace ReplayEngine

variable {F : Type} [Double F] (host : Host F)

/-- The constructor. -/
def new (symbol : Symbol) (cfg : PipelineConfig F) : ReplayEngine F where
  pipeline := .new symbol cfg

/-- The call of `sleep_for` before an event, if there is one. -/
def pause (speed : F) (lastEventTs : Option Timestamp) (ev : MarketEvent) : List ℤ :=
  match lastEventTs with
  | none => []
  | some ts =>
    let delta := wrapI64 (ev.timestamp - ts)
    if ofInt 0 < speed ∧ delta > 0 then [toInt (ofInt delta / speed)] else []

/-- One turn of the loop. -/
def turn (speed : F) (r : Replaying F) (ev : MarketEvent) : Replaying F where
  pipeline := r.pipeline.process host ev
  sleeps := r.sleeps ++ pause speed r.lastEventTs ev
  lastEventTs := some ev.timestamp
  eventsReplayed := r.eventsReplayed + 1

/-- `run(events, speed)`. -/
def run (e : ReplayEngine F) (events : List MarketEvent) (speed : F) :
    ReplaySummary F × ReplayEngine F :=
  let (start, pipeline) := e.pipeline.readClock host
  let r := Foundation.run (turn host speed) { e with pipeline } events
  let (finish, pipeline) := r.pipeline.readClock host
  let wallClockDuration := wrapI64 (finish - start)
  let secs : F := ofInt wallClockDuration / ofInt 1000000000
  ({ eventsReplayed := r.eventsReplayed
     wallClockDuration
     eventsPerSecond := if ofInt 0 < secs then ofInt r.eventsReplayed / secs else ofInt 0 },
    { pipeline, sleeps := r.sleeps })

/-! ## What the loop does -/

/-- The pauses between the events of a list, after an event at `lastEventTs`. -/
def pauses (speed : F) (lastEventTs : Option Timestamp) : List MarketEvent → List ℤ
  | [] => []
  | ev :: events => pause speed lastEventTs ev ++ pauses speed (some ev.timestamp) events

/-- **The loop**: the events go to the pipeline one after the other, with the pauses between them. -/
theorem run_turn (speed : F) (events : List MarketEvent) (r : Replaying F) :
    let r' := Foundation.run (turn host speed) r events
    r'.pipeline = Foundation.run (Pipeline.call host) r.pipeline (events.map .process) ∧
    r'.sleeps = r.sleeps ++ pauses speed r.lastEventTs events ∧
    r'.eventsReplayed = r.eventsReplayed + events.length := by
  induction events generalizing r with
  | nil => exact ⟨rfl, (List.append_nil _).symm, rfl⟩
  | cons ev events ih =>
    obtain ⟨hpipeline, hsleeps, hcount⟩ := ih (turn host speed r ev)
    refine ⟨hpipeline, hsleeps.trans (List.append_assoc _ _ _), hcount.trans ?_⟩
    exact Nat.succ_add _ _

theorem run_pipeline (e : ReplayEngine F) (events : List MarketEvent) (speed : F) :
    (e.run host events speed).2.pipeline =
      ((Foundation.run (Pipeline.call host) (e.pipeline.readClock host).2
        (events.map .process)).readClock host).2 := by
  obtain ⟨hpipeline, -, -⟩ := run_turn host speed events
    { e with pipeline := (e.pipeline.readClock host).2 }
  rw [run, ← hpipeline]

theorem run_eventsReplayed (e : ReplayEngine F) (events : List MarketEvent) (speed : F) :
    (e.run host events speed).1.eventsReplayed = events.length := by
  obtain ⟨-, -, hcount⟩ := run_turn host speed events
    { e with pipeline := (e.pipeline.readClock host).2 }
  exact hcount.trans (Nat.zero_add _)

theorem run_sleeps (e : ReplayEngine F) (events : List MarketEvent) (speed : F) :
    (e.run host events speed).2.sleeps = e.sleeps ++ pauses speed none events := by
  obtain ⟨-, hsleeps, -⟩ := run_turn host speed events
    { e with pipeline := (e.pipeline.readClock host).2 }
  exact hsleeps

theorem run_timeless (symbol : Symbol) (cfg : PipelineConfig F) (events : List MarketEvent)
    (speed : F) : ((new symbol cfg).run host events speed).2.pipeline.timeless =
      (Pipeline.after host symbol cfg (events.map .process)).timeless := by
  rw [run_pipeline]
  exact Pipeline.timeless_run (p := ((Pipeline.new symbol cfg).readClock host).2)
    (q := .new symbol cfg) rfl rfl _

/-! ## Independence -/

theorem decisions_run {host host' : Host F} (hhost : host.frozen = host'.frozen)
    {p q : Pipeline F} (h : p.timeless = q.timeless)
    (hcount : p.telemetry.decisions = q.telemetry.decisions) (events : List MarketEvent) :
    (Foundation.run (Pipeline.call host) p (events.map .process)).telemetry.decisions =
      (Foundation.run (Pipeline.call host') q (events.map .process)).telemetry.decisions := by
  induction events generalizing p q with
  | nil => exact hcount
  | cons ev events ih =>
    have hnext := Pipeline.timeless_process hhost h ev
    refine ih hnext ?_
    have horder : p.outOfOrder ev = q.outOfOrder ev := congrArg (·.outOfOrder ev) h
    cases ho : p.outOfOrder ev with
    | true =>
      show (p.process host ev).telemetry.decisions = (q.process host' ev).telemetry.decisions
      rw [Pipeline.process_dropped ho, Pipeline.process_dropped (horder.symm.trans ho)]
      exact hcount
    | false =>
      have hbook := congrArg (fun r : Pipeline F => r.book) hnext
      have hrequotes : (p.process host ev).requotes ev = (q.process host' ev).requotes ev := by
        exact congrArg (fun b : OrderBook => !b.crossed && Pipeline.bookChanged ev) hbook
      show (p.process host ev).telemetry.decisions = (q.process host' ev).telemetry.decisions
      rw [Pipeline.telemetry_process host ho,
        Pipeline.telemetry_process host' (horder.symm.trans ho), hrequotes]
      exact congrArg (· + _) hcount

theorem decisions_replay (host : Host F) (symbol : Symbol) (cfg : PipelineConfig F)
    (events : List MarketEvent) (speed : F) :
    ((new symbol cfg).run host events speed).2.pipeline.telemetry.decisions =
      (Pipeline.after host symbol cfg (events.map .process)).telemetry.decisions := by
  have hread : ((Pipeline.new symbol cfg).readClock host).2.timeless =
      (Pipeline.new symbol cfg).timeless := rfl
  rw [run_pipeline]
  exact decisions_run rfl hread rfl events

/-- **Replay does not depend on time.** Two replays of a log at any two speeds, under any two clocks
and with or without the profiler leave the same pipeline behind, up to the readings themselves: the
book, the orders, the fills, the portfolio, the counters and the record of the risk checks agree, as
does the number of decisions timed. -/
theorem replay_independent (host : Host F) (clock clock' : ℕ → ℤ) (symbol : Symbol)
    (cfg : PipelineConfig F) (profile profile' : Bool) (speed speed' : F)
    (events : List MarketEvent) :
    let r := (new symbol { cfg with profileStages := profile }).run
      (host.withClock clock) events speed
    let r' := (new symbol { cfg with profileStages := profile' }).run
      (host.withClock clock') events speed'
    r.2.pipeline.timeless = r'.2.pipeline.timeless ∧
    r.2.pipeline.stats.decisionLatency.count = r'.2.pipeline.stats.decisionLatency.count ∧
    r.1.eventsReplayed = events.length ∧ r'.1.eventsReplayed = events.length := by
  intro r r'
  have hhost : (host.withClock clock).frozen = (host.withClock clock').frozen := rfl
  have hnew := (Pipeline.timeless_new symbol cfg profile).trans
    (Pipeline.timeless_new symbol cfg profile').symm
  refine ⟨?_, ?_, run_eventsReplayed _ _ _ _, run_eventsReplayed _ _ _ _⟩
  · have h : r.2.pipeline.timeless = _ := run_timeless _ symbol _ events speed
    have h' : r'.2.pipeline.timeless = _ := run_timeless _ symbol _ events speed'
    rw [h, h']
    exact Pipeline.timeless_run hhost hnew (events.map .process)
  · have h : r.2.pipeline.stats.decisionLatency.count = _ :=
      decisions_replay _ symbol _ events speed
    have h' : r'.2.pipeline.stats.decisionLatency.count = _ :=
      decisions_replay _ symbol _ events speed'
    rw [h, h']
    exact decisions_run hhost hnew rfl events

/-! ## Pacing -/

theorem le_getLastD_of_sorted {events : List MarketEvent} {first : MarketEvent}
    (h : (first :: events).IsChain fun a b => a.timestamp ≤ b.timestamp) :
    first.timestamp ≤ (events.getLastD first).timestamp := by
  induction events generalizing first with
  | nil => exact le_rfl
  | cons ev events ih =>
    obtain ⟨hle, hrest⟩ := List.isChain_cons_cons.mp h
    rw [List.getLastD_cons]
    exact hle.trans (ih hrest)

section Pauses

variable {speed : Rat64} (hs : 0 < speed.val)

include hs

theorem pause_bounds {ts : Timestamp} {ev : MarketEvent} (hle : ts ≤ ev.timestamp)
    (hfits : ev.timestamp - ts < 2 ^ 63)
    (hscaled : ((ev.timestamp - ts : ℤ) : ℚ) / speed.val < 2 ^ 63) :
    ((pause speed (some ts) ev).sum : ℚ) * speed.val ≤ (ev.timestamp - ts : ℤ) ∧
      ((ev.timestamp - ts : ℤ) : ℚ) ≤ ((pause speed (some ts) ev).sum + 1) * speed.val := by
  have hstep : 0 ≤ ev.timestamp - ts := by lia
  have hdelta : wrapI64 (ev.timestamp - ts) = ev.timestamp - ts :=
    wrapI64_of_inI64 ⟨by lia, hfits⟩
  unfold pause
  dsimp only
  rw [hdelta]
  generalize ev.timestamp - ts = delta at *
  by_cases hpos : 0 < delta
  · have hnonneg : (0 : ℚ) ≤ delta / speed.val := div_nonneg (by exact_mod_cast hpos.le) hs.le
    have htoInt : toInt (ofInt delta / speed) = ⌊(delta : ℚ) / speed.val⌋ := by
      have hfloor : toInt ((delta : ℚ) / speed.val) = ⌊(delta : ℚ) / speed.val⌋ :=
        toInt_of_nonneg hnonneg
      rw [Rat64.toInt_eq, Rat64.val_div, Rat64.val_ofInt, ← hfloor]
      exact castI64_of_inI64 ((inI64_toInt_iff _).mpr ⟨by linarith, hscaled⟩)
    have hspeed : (ofInt 0 : Rat64) < speed := by
      rw [Rat64.lt_iff, Rat64.val_ofInt, Int.cast_zero]
      exact hs
    have hfloor := Int.floor_le ((delta : ℚ) / speed.val)
    have hlt := Int.lt_floor_add_one ((delta : ℚ) / speed.val)
    rw [le_div_iff₀ hs] at hfloor
    rw [div_lt_iff₀ hs] at hlt
    rw [if_pos ⟨hspeed, hpos⟩, htoInt, List.sum_singleton]
    exact ⟨hfloor, hlt.le⟩
  · have hzero : delta = 0 := by lia
    rw [if_neg fun h => hpos h.2, hzero]
    simpa using hs.le

theorem pauses_bounds {events : List MarketEvent} {first : MarketEvent}
    (hsorted : (first :: events).IsChain fun a b => a.timestamp ≤ b.timestamp)
    (hfits : (events.getLastD first).timestamp - first.timestamp < 2 ^ 63)
    (hscaled : (((events.getLastD first).timestamp - first.timestamp : ℤ) : ℚ) / speed.val
      < 2 ^ 63) :
    ((pauses speed (some first.timestamp) events).sum : ℚ) * speed.val ≤
        ((events.getLastD first).timestamp - first.timestamp : ℤ) ∧
      (((events.getLastD first).timestamp - first.timestamp : ℤ) : ℚ) ≤
        ((pauses speed (some first.timestamp) events).sum + events.length) * speed.val := by
  induction events generalizing first with
  | nil => simp [pauses]
  | cons ev events ih =>
    obtain ⟨hle, hrest⟩ := List.isChain_cons_cons.mp hsorted
    rw [List.getLastD_cons] at *
    have hlast := le_getLastD_of_sorted hrest
    -- neither the next step nor what is left of the log is longer than the log
    have hpart : ∀ n : ℤ, n ≤ (events.getLastD ev).timestamp - first.timestamp →
        (n : ℚ) / speed.val < 2 ^ 63 := fun n hn =>
      lt_of_le_of_lt (div_le_div_of_nonneg_right (by exact_mod_cast hn) hs.le) hscaled
    obtain ⟨h₁, h₂⟩ := pause_bounds hs hle (by lia) (hpart _ (by lia))
    obtain ⟨h₃, h₄⟩ := ih hrest (by lia) (hpart _ (by lia))
    rw [pauses, List.sum_append, List.length_cons]
    push_cast at h₁ h₂ h₃ h₄ ⊢
    constructor <;> linarith

/-- **The pacing of a replay.** At a positive speed, a log in the order of its timestamps is paused
for the time it spans, divided by the speed, up to a nanosecond for each event after the first, as
long as both the span and the quotient are below `2 ^ 63` nanoseconds. -/
theorem pacing_exact (host : Host Rat64) (symbol : Symbol) (cfg : PipelineConfig Rat64)
    (first : MarketEvent) (rest : List MarketEvent)
    (hsorted : (first :: rest).IsChain fun a b => a.timestamp ≤ b.timestamp)
    (hfits : (rest.getLastD first).timestamp - first.timestamp < 2 ^ 63)
    (hscaled : (((rest.getLastD first).timestamp - first.timestamp : ℤ) : ℚ) / speed.val
      < 2 ^ 63) :
    let slept := ((new symbol cfg).run host (first :: rest) speed).2.sleeps.sum
    let span := (rest.getLastD first).timestamp - first.timestamp
    (slept : ℚ) ≤ span / speed.val ∧ (span : ℚ) / speed.val ≤ slept + rest.length := by
  intro slept span
  have hslept : slept = (pauses speed (some first.timestamp) rest).sum :=
    congrArg List.sum (run_sleeps host (new symbol cfg) (first :: rest) speed)
  rw [hslept, le_div_iff₀ hs, div_le_iff₀ hs]
  exact pauses_bounds hs hsorted hfits hscaled

end Pauses

/-- Three trades in eleven nanoseconds, at double speed. -/
theorem pacing_exact_doubled :
    let trade (ts : Timestamp) (seq : ℕ) :=
      MarketEvent.makeTrade ts seq (.ofView [65]) .buy (.fromTicks 1000000) 1
    let slept := ((new (.ofView [65]) ({} : PipelineConfig Rat64)).run (lowHost Rat64)
      [trade 0 1, trade 5 2, trade 11 3] ⟨2⟩).2.sleeps.sum
    (slept : ℚ) ≤ ((11 : ℤ) - (0 : ℤ) : ℤ) / 2 ∧
      (((11 : ℤ) - (0 : ℤ) : ℤ) : ℚ) / 2 ≤ slept + (2 : ℕ) :=
  pacing_exact (show 0 < (⟨2⟩ : Rat64).val by norm_num) (lowHost Rat64) (.ofView [65]) {} _ [_, _]
    (by decide) (by decide) (by norm_num [MarketEvent.makeTrade])

end ReplayEngine

end Lob
