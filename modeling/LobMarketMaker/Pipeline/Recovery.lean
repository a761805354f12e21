import LobMarketMaker.Pipeline.Delivery
import LobMarketMaker.Pipeline.Redelivery

/-!
# Recovery by snapshot

A snapshot event empties the book, and a batch of quotes after it repopulates it. However much of
the feed was lost before, a pipeline that is given such a batch in sequence shows the book the batch
was taken from, and follows it from there.

* `sideLevels`, `Repopulates`: the levels of a book, and a batch that lists them in any order;
* `mem_run_quotes`: what quotes at distinct levels leave in an empty book;
* `Follows`, `run_follows`: a run of events in sequence and without silence reaches the book
  unchanged, whatever the clock does in between;
* **`snapshot_recovers`**.
-/

set_option autoImplicit false

namespace Lob

open Foundation

namespace OrderBook

/-- All levels of a book, with their sides. -/
def sideLevels (b : OrderBook) : List (BookSide × BookLevel) :=
  b.bids.map (BookSide.bid, ·) ++ b.asks.map (BookSide.ask, ·)

/-- The level that a quote sets. -/
def quoted (ev : MarketEvent) : BookSide × BookLevel := (ev.side.book, ⟨ev.price, ev.quantity⟩)

/-- A snapshot and the quotes of all levels of a book, in any order. -/
inductive Repopulates (b : OrderBook) : List MarketEvent → Prop
  | mk (e : MarketEvent) (quotes : List MarketEvent) (snapshot : e.type = .snapshot)
      (quote : ∀ ev ∈ quotes, ev.type = .quote) (levels : (quotes.map quoted).Perm b.sideLevels) :
      Repopulates b (e :: quotes)

theorem mem_sideLevels {b : OrderBook} {s : BookSide} {lvl : BookLevel} :
    (s, lvl) ∈ b.sideLevels ↔ lvl ∈ b.levels s := by
  unfold sideLevels
  cases s <;> simp [levels]

theorem nodup_sideLevels {b : OrderBook} (hb : b.Ordered) :
    (b.sideLevels.map fun x => (x.1, x.2.price)).Nodup := by
  have hprices : ∀ s, ((b.levels s).map BookLevel.price).Nodup := fun s =>
    List.pairwise_map.mpr ((hb s).imp fun h => ne_of_rel (r := s.Better) h)
  have hside : ∀ s : BookSide, ((b.levels s).map fun lvl => (s, lvl.price)).Nodup := by
    intro s
    have hmap : ((b.levels s).map fun lvl => (s, lvl.price)) =
        ((b.levels s).map BookLevel.price).map (s, ·) := List.map_map.symm
    rw [hmap]
    exact (hprices s).map (Prod.mk_right_injective s)
  unfold sideLevels
  rw [List.map_append, List.map_map, List.map_map, List.nodup_append]
  refine ⟨hside .bid, hside .ask, ?_⟩
  rintro x hx _ hy rfl
  obtain ⟨lvl, -, rfl⟩ := List.mem_map.mp hx
  obtain ⟨lvl', -, h⟩ := List.mem_map.mp hy
  exact BookSide.noConfusion (congrArg Prod.fst h)

/-- **Quotes at distinct levels** are what an empty book holds after them. -/
theorem mem_run_quotes {b : OrderBook} (hb : b.Ordered) (hempty : ∀ s, b.levels s = [])
    (quotes : List MarketEvent) (hquote : ∀ ev ∈ quotes, ev.type = .quote)
    (hzero : ∀ ev ∈ quotes, ev.quantity ≠ 0)
    (hnodup : (quotes.map fun ev => (ev.side.book, ev.price)).Nodup) :
    (run apply b quotes).Ordered ∧ ∀ s lvl,
      lvl ∈ (run apply b quotes).levels s ↔ (s, lvl) ∈ quotes.map quoted := by
  induction quotes using List.reverseRecOn with
  | nil =>
    refine ⟨hb, fun s lvl => ?_⟩
    show lvl ∈ b.levels s ↔ _
    rw [hempty]
    simp
  | append_singleton quotes ev ih =>
    rw [List.forall_mem_append] at hquote hzero
    rw [List.map_append, List.nodup_append] at hnodup
    obtain ⟨hnodup, -, hdisj⟩ := hnodup
    obtain ⟨ih₁, ih₂⟩ := ih hquote.1 hzero.1 hnodup
    have hev : ev.type = .quote := hquote.2 ev List.mem_cons_self
    have hqty : ev.quantity ≠ 0 := hzero.2 ev List.mem_cons_self
    rw [run_concat]
    refine ⟨ih₁.apply ev, fun s lvl => ?_⟩
    rw [mem_apply ih₁, ih₂, List.map_append, List.mem_append, List.map_singleton,
      List.mem_singleton, LevelAfter, if_neg (by rw [hev]; exact EventType.noConfusion)]
    by_cases hw : ev.Writes s lvl.price
    · -- no earlier quote was at this level
      have hnot : (s, lvl) ∉ quotes.map quoted := by
        intro hmem
        obtain ⟨ev', hev', heq⟩ := List.mem_map.mp hmem
        refine hdisj (s, lvl.price) ?_ (s, lvl.price) ?_ rfl
        · exact List.mem_map.mpr ⟨ev', hev', congrArg (fun x => (x.1, x.2.price)) heq⟩
        · exact List.mem_singleton.mpr (Prod.ext hw.2.1.symm hw.2.2.symm)
      rw [if_pos hw, or_iff_right hnot]
      constructor
      · rintro ⟨-, hq, -⟩
        exact Prod.ext hw.2.1.symm (BookLevel.ext hw.2.2.symm hq.symm)
      · intro heq
        have hlvl : lvl = ⟨ev.price, ev.quantity⟩ := congrArg Prod.snd heq
        rw [hlvl]
        exact ⟨hev, rfl, hqty⟩
    · rw [if_neg hw]
      refine (or_iff_left fun heq => hw ⟨.inl hev, ?_, ?_⟩).symm
      · exact (congrArg Prod.fst heq).symm
      · exact (congrArg (fun x : BookSide × BookLevel => x.2.price) heq).symm

/-- **A batch repopulates the book**, from whatever it held before. -/
theorem levels_run_repopulates {b : OrderBook} {symbol : Symbol} {evs batch : List MarketEvent}
    (h : Repopulates (after symbol evs) batch) (s : BookSide) :
    (run apply b batch).levels s = (after symbol evs).levels s := by
  obtain ⟨e, quotes, hsnapshot, hquote, hperm⟩ := h
  obtain ⟨hordered, hlevels⟩ := after_spec symbol evs
  have hclear : ∀ s, (b.apply e).levels s = [] := by
    intro s
    unfold apply
    rw [hsnapshot]
    exact levels_clear _ s
  have hb : (b.apply e).Ordered := fun s => by
    rw [hclear]
    exact sorted_nil _ _
  have hzero : ∀ ev ∈ quotes, ev.quantity ≠ 0 := by
    intro ev hev
    have hmem := hperm.mem_iff.mp (List.mem_map_of_mem hev)
    obtain ⟨-, -, -, -, -, -, -, h0, -⟩ := (hlevels _ _).mp (mem_sideLevels.mp hmem)
    exact h0
  have hnodup : (quotes.map fun ev => (ev.side.book, ev.price)).Nodup := by
    have hmap := (hperm.map fun x => (x.1, x.2.price)).nodup_iff.mpr (nodup_sideLevels hordered)
    rwa [List.map_map] at hmap
  obtain ⟨hrun, hmem⟩ := mem_run_quotes hb hclear quotes hquote hzero hnodup
  refine sorted_unique (hrun s) (hordered s) fun lvl => ?_
  exact (hmem s lvl).trans ((hperm.mem_iff).trans mem_sideLevels)

theorem levels_run_congr {b b' : OrderBook} (h : ∀ s, b.levels s = b'.levels s)
    (evs : List MarketEvent) (s : BookSide) :
    (run apply b evs).levels s = (run apply b' evs).levels s :=
  run_lockstep apply apply (R := fun b b' => ∀ s, b.levels s = b'.levels s)
    (fun _ _ ev hb => levels_apply_congr hb ev) h evs s

end OrderBook

/-! ## Following the feed -/

/-- `b` comes right after `a` in the feed, within the threshold by the `int64_t` difference of the
timestamps. -/
def Follows (threshold : Timestamp) (a b : MarketEvent) : Prop :=
  b.sequence = a.sequence + 1 ∧ wrapI64 (b.timestamp - a.timestamp) ≤ threshold

instance (threshold : Timestamp) : DecidableRel (Follows threshold) := fun a b => by
  unfold Follows
  infer_instance

namespace Pipeline

variable {F : Type} [Double F] {host : Host F} {p : Pipeline F} {ev e : MarketEvent}

/-- The trackers stand at an event. -/
structure StandsAt (p : Pipeline F) (e : MarketEvent) : Prop where
  lastSequence : p.lastSequence = some e.sequence
  lastEventTs : p.lastEventTs = some e.timestamp

/-- **The next event** reaches the book as it is. -/
theorem process_follows (host : Host F) (hp : p.StandsAt e) (h : Follows p.staleThreshold e ev) :
    (p.process host ev).book = p.book.apply ev ∧ (p.process host ev).StandsAt ev ∧
      (p.process host ev).staleThreshold = p.staleThreshold := by
  obtain ⟨hseq, hts⟩ := h
  have horder : p.outOfOrder ev = false := by
    rw [outOfOrder, hp.lastSequence, Option.any_some, decide_eq_false_iff_not]
    lia
  have hgap : p.gap ev = false := by
    rw [gap, hp.lastSequence, Option.any_some, decide_eq_false_iff_not]
    exact not_not.mpr hseq
  have hstale : p.stale ev = false := by
    rw [stale, hp.lastEventTs, Option.any_some, decide_eq_false_iff_not]
    exact not_lt.mpr hts
  have hbook := (process_book host horder).1
  rw [bookFor, hgap, hstale] at hbook
  have hh := heard_process host horder
  exact ⟨hbook, ⟨hh.lastSequence, hh.lastEventTs⟩, hh.staleThreshold⟩

/-- **A run that follows the feed** applies its events to the book, one after the other. -/
theorem run_follows (host : Host F) (calls : List Call) (hp : p.StandsAt e)
    (h : (e :: delivered calls).IsChain (Follows p.staleThreshold)) :
    (run (call host) p calls).book = run OrderBook.apply p.book (delivered calls) := by
  induction calls generalizing p e with
  | nil => rfl
  | cons c calls ih =>
    cases c with
    | process ev =>
      obtain ⟨hev, h⟩ := List.isChain_cons_cons.mp h
      obtain ⟨hbook, hstands, hthreshold⟩ := process_follows host hp hev
      have hrun := ih hstands (by rw [hthreshold]; exact h)
      rw [hbook] at hrun
      exact hrun
    | onClock now =>
      have hs := SameTrackers.onClock p now
      have hrun := ih (p := p.onClock now) (e := e)
        ⟨hs.lastSequence.trans hp.lastSequence, hs.lastEventTs.trans hp.lastEventTs⟩
        (by rw [hs.staleThreshold]; exact h)
      rw [hs.book] at hrun
      exact hrun

theorem run_repopulates (host : Host F) (symbol : Symbol) (evs more batch : List MarketEvent)
    (hbatch : OrderBook.Repopulates (OrderBook.after symbol evs) batch) (calls : List Call)
    (hcalls : delivered calls = batch ++ more) (hnew : ∀ e ∈ batch.head?, p.outOfOrder e = false)
    (h : (batch ++ more).IsChain (Follows p.staleThreshold)) (s : BookSide) :
    (run (call host) p calls).book.levels s =
      (run OrderBook.apply (OrderBook.after symbol evs) more).levels s := by
  induction calls generalizing p with
  | nil =>
    cases hbatch
    exact absurd hcalls.symm (List.cons_ne_nil _ _)
  | cons c calls ih =>
    cases c with
    | process ev =>
      have hlevels := OrderBook.levels_run_repopulates (b := p.bookFor ev) hbatch
      obtain ⟨e, quotes, -, -, -⟩ := hbatch
      have hcons : ev :: delivered calls = e :: (quotes ++ more) := hcalls
      obtain ⟨rfl, htail⟩ := List.cons.inj hcons
      have horder := hnew ev rfl
      have hh := heard_process host horder
      have hfollows : (ev :: delivered calls).IsChain
          (Follows (p.process host ev).staleThreshold) := by
        rw [hh.staleThreshold, htail]
        exact h
      have hrun := run_follows host calls ⟨hh.lastSequence, hh.lastEventTs⟩ hfollows
      show (run (call host) (p.process host ev) calls).book.levels s = _
      rw [hrun, htail, (process_book host horder).1, run_append]
      exact OrderBook.levels_run_congr hlevels more s
    | onClock now =>
      have hs := SameTrackers.onClock p now
      refine ih (p := p.onClock now) hcalls (fun e he => ?_) ?_
      · unfold outOfOrder
        rw [hs.lastSequence]
        exact hnew e he
      · rw [hs.staleThreshold]
        exact h

/-- **Recovery by snapshot.** Whatever a pipeline has been through, once it is given a snapshot and
the quotes of a book's levels in any order, in sequence and without a silence beyond the staleness
threshold, it shows the levels of that book, and after any further events of the feed the levels
that these events lead to; on-clock calls in between change nothing. -/
theorem snapshot_recovers (host : Host F) (symbol : Symbol) (cfg : PipelineConfig F)
    (calls calls' : List Call) (source : Symbol) (evs batch more : List MarketEvent)
    (hbatch : OrderBook.Repopulates (OrderBook.after source evs) batch)
    (hcalls : delivered calls' = batch ++ more)
    (hnew : ∀ e ∈ batch.head?, (after host symbol cfg calls).outOfOrder e = false)
    (h : (batch ++ more).IsChain (Follows (after host symbol cfg calls).staleThreshold)) :
    ∀ s, (after host symbol cfg (calls ++ calls')).book.levels s =
      (OrderBook.after source (evs ++ more)).levels s := by
  intro s
  have hrun := run_repopulates host source evs more batch hbatch calls' hcalls hnew h s
  rw [after, run_append, OrderBook.after, run_append]
  exact hrun

/-- A snapshot after a gap. -/
def lateSnapshot : MarketEvent :=
  { MarketEvent.makeHeartbeat 9 9 (Symbol.ofView []) with type := .snapshot }

/-- The quotes of a book with one bid and one ask. -/
def lateQuotes : List MarketEvent :=
  [.makeQuote 10 10 (Symbol.ofView []) .sell (.fromTicks 1000100) 50,
   .makeQuote 11 11 (Symbol.ofView []) .buy (.fromTicks 999900) 100]

theorem snapshot_recovers_gap :
    (after (lowHost ℚ) (Symbol.ofView []) {} ([.process (streamBid 1)] ++
        .process lateSnapshot :: .onClock 12 :: lateQuotes.map Call.process)).book.levels .ask =
      (OrderBook.after (Symbol.ofView [])
        ([.makeQuote 1 1 (Symbol.ofView []) .buy (.fromTicks 999900) 100,
          .makeQuote 2 2 (Symbol.ofView []) .sell (.fromTicks 1000100) 50] ++ [])).levels .ask :=
  snapshot_recovers (lowHost ℚ) (Symbol.ofView []) {} [.process (streamBid 1)] _ (Symbol.ofView [])
    _ (lateSnapshot :: lateQuotes) [] (.mk _ _ rfl (by decide) (by decide)) rfl (by decide +kernel)
    (by decide +kernel) .ask

end Pipeline

end Lob
