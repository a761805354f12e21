import LobMarketMaker.Live.Progress
import LobMarketMaker.Replay.ReplayEngine
import LobMarketMaker.Replay.RoundTrip

/-!
# A live run and its recording

The recorder keeps the events of the feed and writes them to a log.

* `FinnhubRecorder.record`: the tool, from the messages to the file;
* `Consistent.delivered_eq`: a live run without drops processes the whole tape;
* **`replay_reproduces_live`**: replaying the recording leaves the same pipeline behind as the live
  run on the same messages.
-/

set_option autoImplicit false

namespace Lob

open Foundation

variable {F : Type} [Double F]

/-- `main` of the recorder after it has received `msgs`: the file written, if there is one. -/
def FinnhubRecorder.record (parse : List UInt8 → Option (Json F)) (symbol : List UInt8)
    (syntheticSpread : F) (outPath : String) (opens : Bool) (msgs : List WebSocketMessage) :
    Option (Except String (List UInt8)) :=
  let events := (FinnhubClient.received parse symbol syntheticSpread msgs).1
  if events.isEmpty then none else some (writeEventsToFile outPath opens events)

instance (ev : MarketEvent) : Decidable ev.Fits :=
  decidable_of_iff
    (InI64 ev.timestamp ∧ ev.sequence < 2 ^ 64 ∧ InI64 ev.price.ticks ∧ InI64 ev.quantity)
    ⟨fun ⟨ht, hs, hp, hq⟩ => ⟨ht, hs, hp, hq⟩, fun h => ⟨h.1, h.2, h.3, h.4⟩⟩

theorem readEventsFromFile_logBytes (path : String) {evs : List MarketEvent}
    (h : ∀ ev ∈ evs, ev.Fits) : readEventsFromFile path (some (logBytes evs)) = .ok evs := by
  have hlen := length_logBytes evs
  have hread := readEventsFromFile_logBytes_take path h (m := (logBytes evs).length) (by omega)
  have hcount : ((logBytes evs).length - 8) / 50 = evs.length := by omega
  rwa [List.take_length, hcount, List.take_length] at hread

namespace LiveEngine

variable {parse : List UInt8 → Option (Json F)} {host : Host F} {symbol : List UInt8} {spread : F}
  {cfg : PipelineConfig F} {e : LiveEngine F}

/-- **A finished run without drops** has processed the tape from its first event to its last. -/
theorem Consistent.delivered_eq (h : Consistent parse host symbol spread cfg e)
    (hfinished : e.main = .finished) (hdropped : e.dropped = 0) :
    delivered e.calls = (FinnhubClient.received parse symbol spread e.messages).1 := by
  have hwaiting : e.callback = .waiting :=
    h.waiting (by rw [h.stopped, hfinished]; rfl)
  have hemitted : e.emitted = e.handed.map Prod.fst := by
    rw [emitted, hwaiting]
    exact List.append_nil _
  -- nothing was refused
  have hrefused : e.handed.countP (!·.2) = 0 := by
    have howed := h.dropped
    rw [hwaiting, hdropped] at howed
    rw [← h.refused, ← howed]
    rfl
  have hall : e.handed.filter (·.2) = e.handed := by
    rw [List.filter_eq_self]
    intro x hx
    have hx' := List.countP_eq_zero.mp hrefused x hx
    simpa using hx'
  have hpopped : e.ring.popped = delivered e.calls := by
    rw [h.popped, hfinished]
    exact List.append_nil _
  have htape := (FinnhubClient.fed_received parse symbol spread e.messages).tape
  rw [h.tape] at htape
  rw [← congrArg Prod.fst htape, hemitted, ← hpopped, h.finished hfinished, h.pushed, hall]

/-- **Replay reproduces a live run.** A live engine that has finished, in whatever interleaving, with
no event refused by the ring and no clock alarm, and a recorder that got the same messages: the
recorder's log, read back and replayed at any speed, under any clock and with or without the
profiler, leaves the pipeline that the live run left, up to the readings of the clock. -/
theorem replay_reproduces_live (parse : List UInt8 → Option (Json F)) (host : Host F)
    (symbol : List UInt8) (spread : F) (cfg : PipelineConfig F) (actions : List LiveAction)
    (path : String) (speed : F) (clock : ℕ → ℤ) (profile : Bool) :
    let e := live parse host symbol spread cfg actions
    e.main = .finished → e.dropped = 0 → e.pipeline.stats.clockStaleEvents = 0 →
    delivered e.calls ≠ [] → (∀ ev ∈ delivered e.calls, ev.Fits) →
    ∃ bytes events,
      FinnhubRecorder.record parse symbol spread path true e.messages = some (.ok bytes) ∧
      readEventsFromFile path (some bytes) = .ok events ∧
      ((ReplayEngine.new (Symbol.ofView symbol) { cfg with profileStages := profile }).run
        (host.withClock clock) events speed).2.pipeline.timeless = e.pipeline.timeless := by
  intro e hfinished hdropped hquiet hany hfits
  have h : Consistent parse host symbol spread cfg e :=
    consistent_live parse host symbol spread cfg actions
  have hevents := h.delivered_eq hfinished hdropped
  refine ⟨logBytes (delivered e.calls), delivered e.calls, ?_,
    readEventsFromFile_logBytes path hfits, ?_⟩
  · unfold FinnhubRecorder.record
    dsimp only
    rw [← hevents, if_neg (by rwa [List.isEmpty_iff])]
    rfl
  · -- without an alarm, the live pipeline is the one that processed the tape
    have hlive : e.pipeline =
        Pipeline.after host (Symbol.ofView symbol) cfg ((delivered e.calls).map .process) := by
      have hcalls := h.pipeline
      rw [hcalls] at hquiet
      exact hcalls.trans (Pipeline.run_delivered host _ hquiet)
    have hhost : (host.withClock clock).frozen = host.frozen := rfl
    rw [ReplayEngine.run_timeless, hlive]
    exact Pipeline.timeless_run hhost (Pipeline.timeless_new (Symbol.ofView symbol) cfg profile) _

theorem replay_reproduces_live_batch :
    let e := live sampleParse (lowHost ℚ) [65] (1 / 50) {} sampleFinished
    ∃ bytes events,
      FinnhubRecorder.record sampleParse [65] (1 / 50 : ℚ) "log" true e.messages = some (.ok bytes) ∧
      readEventsFromFile "log" (some bytes) = .ok events ∧
      ((ReplayEngine.new (Symbol.ofView [65]) { profileStages := true }).run
        ((lowHost ℚ).withClock fun n => n) events 2).2.pipeline.timeless = e.pipeline.timeless :=
  replay_reproduces_live sampleParse (lowHost ℚ) [65] (1 / 50) {} sampleFinished "log" 2
    (fun n => n) true (by decide +kernel) (by decide +kernel) (by decide +kernel)
    (by decide +kernel) (by decide +kernel)

end LiveEngine

end Lob
