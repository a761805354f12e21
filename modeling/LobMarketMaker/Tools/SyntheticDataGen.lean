import LobMarketMaker.Live.Recording
import LobMarketMaker.Tools.Consistency

/-!
# A synthetic log, replayed

* `SyntheticDataGen.generate`, `SyntheticDataGen.main`: the tool;
* `emit_fits`: the events are records as the log can hold them;
* `InStep`: the pipeline has taken all events so far and expects the next; `InStep.process`: the step
  lemma;
* **`synthetic_log_replays`**: the log of any seed replays without a fault.
-/

set_option autoImplicit false

namespace Lob

open Foundation

namespace SyntheticDataGen

variable {F : Type} [Double F]

/-- The events of `main`'s loop. -/
def generate (draws : Draws F) (startPrice tickSize : F) (symbol : Symbol) (numEvents : ℤ) :
    List MarketEvent :=
  ((SyntheticBookGenerator.new startPrice tickSize symbol).emit draws numEvents.toNat).1

/-- `main`: the file written, or the error thrown. -/
def main (draws : Draws F) (startPrice tickSize : F) (symbol : Symbol) (numEvents : ℤ)
    (outPath : String) (opens : Bool) : Except String (List UInt8) :=
  -- as a `size_t`, a negative number of events is more than `reserve` takes
  if numEvents < 0 then .error "vector::reserve"
  else writeEventsToFile outPath opens (generate draws startPrice tickSize symbol numEvents)

/-! ## In step -/

/-- The telemetry of a feed without a fault. -/
def faultless (profile : Bool) (events : List MarketEvent) : Telemetry where
  eventsProcessed := events.length
  outOfOrderDropped := 0
  sequenceGaps := 0
  staleResets := 0
  clockStaleEvents := 0
  crossedBookEvents := 0
  decisions := events.countP Pipeline.bookChanged
  bookUpdates := events.length * profile.toNat
  executions := events.length * profile.toNat
  profileStages := profile

/-- The pipeline has taken the events so far without a fault, and expects the next one. -/
structure InStep (symbol : Symbol) (cfg : PipelineConfig F) (g : SyntheticBookGenerator)
    (events : List MarketEvent) (p : Pipeline F) : Prop where
  book : p.book = OrderBook.after symbol events
  telemetry : p.telemetry = faultless cfg.profileStages events
  staleThreshold : p.staleThreshold = (Pipeline.new symbol cfg).staleThreshold
  expects : ∀ (ev : MarketEvent) (g' : SyntheticBookGenerator), g.Stamped ev g' →
    p.outOfOrder ev = false ∧ p.gap ev = false ∧ p.stale ev = false

variable {symbol : Symbol} {cfg : PipelineConfig F} {g g' : SyntheticBookGenerator}
  {events : List MarketEvent} {p : Pipeline F} {ev : MarketEvent}

/-- **Step lemma.** -/
theorem InStep.process (h : InStep symbol cfg g events p) (host : Host F)
    (hstale : 2000000 ≤ (Pipeline.new symbol cfg).staleThreshold) (he : g.Stamped ev g')
    (hcrossed : (OrderBook.after symbol (events ++ [ev])).crossed = false) :
    InStep symbol cfg g' (events ++ [ev]) (p.process host ev) := by
  obtain ⟨horder, hgap, hsilent⟩ := h.expects ev g' he
  have hheard := Pipeline.heard_process host horder
  have hbook : (p.process host ev).book = OrderBook.after symbol (events ++ [ev]) := by
    have hfor : p.bookFor ev = p.book := by
      unfold Pipeline.bookFor
      rw [hgap, hsilent]
      rfl
    rw [(Pipeline.process_book host horder).1, hfor, h.book, OrderBook.after, OrderBook.after,
      run_concat]
  have hcrossed' : (p.process host ev).book.crossed = false := hbook ▸ hcrossed
  have hrequotes : (p.process host ev).requotes ev = Pipeline.bookChanged ev := by
    unfold Pipeline.requotes
    rw [hcrossed']
    rfl
  refine ⟨hbook, ?_, hheard.staleThreshold.trans h.staleThreshold, fun ev' g'' he' => ?_⟩
  · have hprofile : p.profileStages = cfg.profileStages := congrArg Telemetry.profileStages h.telemetry
    rw [Pipeline.telemetry_process host horder, h.telemetry, hgap, hsilent, hcrossed', hrequotes,
      hprofile]
    unfold faultless
    rw [List.length_append, List.countP_append, List.countP_singleton, List.length_singleton,
      Nat.add_mul, Nat.one_mul]
    cases Pipeline.bookChanged ev <;> rfl
  · have hlast := hheard.lastSequence
    have hts := hheard.lastEventTs
    have hseq : ev'.sequence = ev.sequence + 1 := he.seq ▸ he'.sequence
    obtain ⟨ns, hlo, hhi, hts'⟩ := he'.timestamp
    rw [he.t] at hts'
    unfold Pipeline.outOfOrder Pipeline.gap Pipeline.stale
    rw [hlast, hts, hheard.staleThreshold, h.staleThreshold, Option.any_some, Option.any_some,
      Option.any_some]
    refine ⟨decide_eq_false ?_, decide_eq_false ?_, decide_eq_false ?_⟩
    · rw [hseq]
      exact Nat.not_succ_le_self _
    · exact not_not.mpr hseq
    · rw [hts', wrapI64_add_sub, wrapI64_of_inI64 ⟨by lia, by lia⟩]
      lia

section Runs

variable [TruncNonneg F] (draws : Draws F) (startPrice : F) {tickSize : F} (symbol : Symbol)
  (htick : 1 ≤ (Price.fromDouble tickSize).ticks) {n : ℕ}
  (hrange : ∀ m < n, SyntheticBookGenerator.InRange
    (((SyntheticBookGenerator.new startPrice tickSize symbol).emit draws m).2.nextRef draws)
    (Price.fromDouble tickSize).ticks)

include htick hrange

/-- **The log can hold the events.** -/
theorem emit_fits (hn : n < 2 ^ 64) :
    ∀ ev ∈ ((SyntheticBookGenerator.new startPrice tickSize symbol).emit draws n).1, ev.Fits := by
  induction n with
  | zero => exact fun ev hev => absurd hev List.not_mem_nil
  | succ n ih =>
    have hbefore := fun m hm => hrange m (Nat.lt_succ_of_lt hm)
    obtain ⟨hg, -⟩ := SyntheticBookGenerator.emit_shows draws startPrice symbol symbol htick hbefore
    have hgtick := SyntheticBookGenerator.emit_tick draws
      (SyntheticBookGenerator.new startPrice tickSize symbol) n
    have he := hg.next_emits draws (hgtick.symm ▸ hrange n (Nat.lt_succ_self n))
    have hs := SyntheticBookGenerator.next_stamped draws
      ((SyntheticBookGenerator.new startPrice tickSize symbol).emit draws n).2
    obtain ⟨ns, -, -, hts⟩ := hs.timestamp
    obtain ⟨hlo, hhi⟩ := he.quantity_mem
    intro ev hev
    rcases List.mem_append.mp hev with hev | hev
    · exact ih hbefore (by omega) ev hev
    · rw [List.mem_singleton.mp hev]
      refine ⟨hts ▸ inI64_wrapI64 _, ?_, he.price, ⟨by lia, by lia⟩⟩
      rw [hs.sequence, SyntheticBookGenerator.emit_seq]
      exact (Nat.zero_add n).symm ▸ hn

/-- **Run lemma.** The generator and the pipeline stay in step, and the book shows the generator's
levels. -/
theorem inStep_emit (host : Host F) (cfg : PipelineConfig F)
    (hstale : 2000000 ≤ (Pipeline.new symbol cfg).staleThreshold) :
    let r := (SyntheticBookGenerator.new startPrice tickSize symbol).emit draws n
    InStep symbol cfg r.2 r.1 (Pipeline.after host symbol cfg (r.1.map .process)) := by
  intro r
  induction n with
  | zero =>
    have hnil : faultless cfg.profileStages [] = (Pipeline.new symbol cfg).telemetry := by
      unfold faultless
      rw [List.length_nil, Nat.zero_mul]
      rfl
    exact ⟨rfl, hnil.symm, rfl, fun _ _ _ => ⟨rfl, rfl, rfl⟩⟩
  | succ n ih =>
    obtain ⟨hg, hb⟩ := SyntheticBookGenerator.emit_shows draws startPrice symbol symbol htick hrange
    have hstep := (ih fun m hm => hrange m (Nat.lt_succ_of_lt hm)).process host hstale
      (SyntheticBookGenerator.next_stamped draws _) (hb.not_crossed hg.toQueued)
    show InStep symbol cfg _ _ (Pipeline.after host symbol cfg ((_ ++ [_]).map .process))
    rw [List.map_append, Pipeline.after, run_append]
    exact hstep

end Runs

/-- **A synthetic log replays without a fault.** For any seed and any number of events, as long as
it is not negative and the reference keeps ten ticks away from the ends of `int64_t`: the log that
the tool writes, read back and replayed at any speed, has no event out of order, no gap, no stale
reset and no crossed book; every event that can change the book leads to a decision; and in the end
the book has the prices that the generator tracks or has queued for deletion. -/
theorem synthetic_log_replays [TruncNonneg F] (draws : Draws F) (host : Host F)
    (startPrice tickSize : F) (symbol : Symbol) (cfg : PipelineConfig F) (numEvents : ℤ)
    (path : String) (speed : F) (htick : 1 ≤ (Price.fromDouble tickSize).ticks)
    (hnonneg : 0 ≤ numEvents) (hlong : InI64 numEvents)
    (hrange : ∀ m < numEvents.toNat, SyntheticBookGenerator.InRange
      (((SyntheticBookGenerator.new startPrice tickSize symbol).emit draws m).2.nextRef draws)
      (Price.fromDouble tickSize).ticks)
    (hstale : 2000000 ≤ (Pipeline.new symbol cfg).staleThreshold) :
    ∃ bytes events,
      main draws startPrice tickSize symbol numEvents path true = .ok bytes ∧
      readEventsFromFile path (some bytes) = .ok events ∧
      let g := ((SyntheticBookGenerator.new startPrice tickSize symbol).emit draws
        numEvents.toNat).2
      let p := ((ReplayEngine.new symbol cfg).run host events speed).2.pipeline
      p.stats.eventsProcessed = events.length ∧ p.stats.outOfOrderDropped = 0 ∧
      p.stats.sequenceGaps = 0 ∧ p.stats.staleResets = 0 ∧ p.stats.crossedBookEvents = 0 ∧
      p.stats.decisionLatency.count = events.countP Pipeline.bookChanged ∧
      ∀ s px, (∃ lvl ∈ p.book.levels s, lvl.price = .fromTicks px) ↔ g.Shown s px := by
  have hcount : numEvents.toNat < 2 ^ 64 := by
    have := hlong.2
    omega
  have hfits : ∀ ev ∈ generate draws startPrice tickSize symbol numEvents, ev.Fits :=
    emit_fits draws startPrice symbol htick hrange hcount
  refine ⟨_, _, if_neg (not_lt.mpr hnonneg), readEventsFromFile_logBytes path hfits, ?_⟩
  intro g p
  have hstep := inStep_emit draws startPrice symbol htick hrange host cfg hstale
  obtain ⟨hg, hb⟩ := SyntheticBookGenerator.emit_shows draws startPrice symbol symbol htick hrange
  have hsame : p.timeless = _ := ReplayEngine.run_timeless host symbol cfg
    (generate draws startPrice tickSize symbol numEvents) speed
  have hdecisions : p.telemetry.decisions = _ := ReplayEngine.decisions_replay host symbol cfg
    (generate draws startPrice tickSize symbol numEvents) speed
  have htelemetry := hstep.telemetry
  have hbook : p.book = _ := (congrArg Pipeline.book hsame).trans hstep.book
  refine ⟨?_, ?_, ?_, ?_, ?_, ?_, ?_⟩
  · exact (congrArg (fun q => q.stats.eventsProcessed) hsame).trans
      (congrArg Telemetry.eventsProcessed htelemetry)
  · exact (congrArg (fun q => q.stats.outOfOrderDropped) hsame).trans
      (congrArg Telemetry.outOfOrderDropped htelemetry)
  · exact (congrArg (fun q => q.stats.sequenceGaps) hsame).trans
      (congrArg Telemetry.sequenceGaps htelemetry)
  · exact (congrArg (fun q => q.stats.staleResets) hsame).trans
      (congrArg Telemetry.staleResets htelemetry)
  · exact (congrArg (fun q => q.stats.crossedBookEvents) hsame).trans
      (congrArg Telemetry.crossedBookEvents htelemetry)
  · exact hdecisions.trans (congrArg Telemetry.decisions htelemetry)
  · rw [hbook]
    exact hb.mem

/-- A million events on a grid of cents, among them quotes, trades and deletions of both sides. -/
theorem synthetic_log_replays_cents :
    ∃ bytes events,
      main SyntheticBookGenerator.scatteredDraws 190 (1 / 100) (.ofView [65]) 1000000 "log" true =
        .ok bytes ∧
      readEventsFromFile "log" (some bytes) = .ok events ∧
      let g := ((SyntheticBookGenerator.new (190 : ℚ) (1 / 100) (.ofView [65])).emit
        SyntheticBookGenerator.scatteredDraws (1000000 : ℤ).toNat).2
      let p := ((ReplayEngine.new (.ofView [65]) {}).run (lowHost ℚ) events 0).2.pipeline
      p.stats.eventsProcessed = events.length ∧ p.stats.outOfOrderDropped = 0 ∧
      p.stats.sequenceGaps = 0 ∧ p.stats.staleResets = 0 ∧ p.stats.crossedBookEvents = 0 ∧
      p.stats.decisionLatency.count = events.countP Pipeline.bookChanged ∧
      ∀ s px, (∃ lvl ∈ p.book.levels s, lvl.price = .fromTicks px) ↔ g.Shown s px :=
  synthetic_log_replays SyntheticBookGenerator.scatteredDraws (lowHost ℚ) 190 (1 / 100)
    (.ofView [65]) {} 1000000 "log" 0 (by rw [SyntheticBookGenerator.cent_ticks]; decide)
    (by decide) (by decide) (fun _ hm => SyntheticBookGenerator.inRange_cents _ (by omega)) (by decide +kernel)

end SyntheticDataGen

end Lob
