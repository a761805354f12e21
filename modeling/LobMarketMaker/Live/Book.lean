import LobMarketMaker.Live.Progress
import LobMarketMaker.Pipeline.LivePath

/-!
# The live book

The synthetic quotes never cross, and what the ring loses does not change that: the book of the
pipeline is always part of a book of the tape.

* `Part b o`: every level of the book is the one the overlay has on that side;
* `tally_eq_zero`, `tally_eq_countP`: a tally over states that are all alike;
* **`live_never_crosses`**.
-/

set_option autoImplicit false

namespace Lob

open Foundation OrderBook

/-! ## Parts of an overlay -/

namespace OrderBook

variable {b : OrderBook} {o : Overlay}

/-- Every level of the book is that of the overlay. -/
def Part (b : OrderBook) (o : Overlay) : Prop := ∀ s, ∀ lvl ∈ b.levels s, o s = some lvl

theorem Part.crossed_eq (h : Part b o) (ho : o.Uncrossed) : b.crossed = false := by
  unfold crossed
  cases hbid : b.bestBid with
  | none => rfl
  | some bid =>
    cases hask : b.bestAsk with
    | none => rfl
    | some ask =>
      obtain ⟨lvl, hlvl, rfl⟩ := exists_level (b := b) (s := .bid) hbid
      obtain ⟨lvl', hlvl', rfl⟩ := exists_level (b := b) (s := .ask) hask
      exact decide_eq_false (not_le.mpr (ho lvl lvl' (h .bid lvl hlvl) (h .ask lvl' hlvl')))

/-- A part of an overlay has one level on each side at most. -/
theorem Part.length_le (h : Part b o) (hb : b.Ordered) (s : BookSide) :
    (b.levels s).length ≤ 1 := by
  cases hl : b.levels s with
  | nil => exact Nat.zero_le _
  | cons first rest =>
    cases rest with
    | nil => exact le_refl _
    | cons second rest =>
      have hfirst := h s first (by rw [hl]; exact List.mem_cons_self)
      have hsecond := h s second (by rw [hl]; exact List.mem_cons_of_mem _ List.mem_cons_self)
      have hsorted := hb s
      rw [hl] at hsorted
      have hbetter := (List.pairwise_cons.mp hsorted).1 second List.mem_cons_self
      rw [hfirst] at hsecond
      cases hsecond
      cases s <;> exact absurd hbetter (lt_irrefl _)

end OrderBook

namespace Pipeline

variable {F : Type} [Double F]

/-! ## Tallies -/

/-- **Nothing to count**, if no state that the run passes through is of the kind. -/
theorem tally_eq_zero (host : Host F) (p : Pipeline F) (kind : Pipeline F → MarketEvent → Bool)
    {calls : List Call}
    (h : ∀ pre ev, pre ++ [.process ev] <+: calls →
      kind (run (call host) p (pre ++ [.process ev])) ev = false) :
    p.tally host kind calls = 0 := by
  induction calls using List.reverseRecOn with
  | nil => rfl
  | append_singleton calls c ih =>
    have hbefore := ih fun pre ev hpre => h pre ev (hpre.trans (List.prefix_append _ _))
    rw [tally_append, hbefore, Nat.zero_add]
    cases c with
    | onClock now => rfl
    | process ev =>
      have hlast := h calls ev List.prefix_rfl
      rw [run_concat] at hlast
      change kind ((run (call host) p calls).process host ev) ev = false at hlast
      rw [tally, hlast, Bool.and_false, tally]
      rfl

/-- **A kind that only looks at the event.** -/
theorem tally_eq_countP (host : Host F) (p : Pipeline F) (kind : Pipeline F → MarketEvent → Bool)
    (kind' : MarketEvent → Bool) (calls : List Call)
    (h : ∀ pre ev, pre ++ [.process ev] <+: calls →
      kind (run (call host) p (pre ++ [.process ev])) ev = kind' ev) :
    p.tally host kind calls = (p.accepted host calls).countP kind' := by
  induction calls using List.reverseRecOn with
  | nil => rfl
  | append_singleton calls c ih =>
    have hbefore := ih fun pre ev hpre => h pre ev (hpre.trans (List.prefix_append _ _))
    rw [tally_append, accepted_append, List.countP_append, hbefore]
    cases c with
    | onClock now => rfl
    | process ev =>
      have hlast := h calls ev List.prefix_rfl
      rw [run_concat] at hlast
      change kind ((run (call host) p calls).process host ev) ev = kind' ev at hlast
      rw [tally, hlast, tally, accepted]
      cases (run (call host) p calls).outOfOrder ev with
      | true => rfl
      | false =>
        rw [if_neg Bool.false_ne_true, accepted, List.countP_singleton]
        cases kind' ev <;> rfl

/-! ## Any selection from the tape -/

/-- **A pipeline that is given events of a tape whose prices fit**, in whatever selection, order and
multiplicity, has a part of an uncrossed overlay for its book. -/
theorem part_after (host : Host Rat64) (symbol : Symbol) (cfg : PipelineConfig Rat64)
    {spread : Rat64} (hs : 1 / 10000 ≤ spread.val) {trades : List (FinnhubTrade Rat64)}
    (hfit : ∀ t ∈ trades, TradeTapeAdapter.PricesFit spread t) {calls : List Call}
    (hcalls : ∀ ev, .process ev ∈ calls →
      ev ∈ (TradeTapeAdapter.onTrades (.new spread) trades).1) :
    ∃ o : Overlay, o.Uncrossed ∧ Part (after host symbol cfg calls).book o := by
  obtain ⟨o, ho, -, -⟩ := TradeTapeAdapter.onTrades_emitted (· < ·) symbol spread trades
    fun t ht => (hfit t ht).newBid_lt_newAsk hs
  obtain ⟨pre, hpre, hsub⟩ := exists_prefix host symbol cfg (consecutive_tape spread trades) hcalls
  obtain ⟨o', hholds, ho'⟩ := ho.prefixes pre hpre
  exact ⟨o', ho', fun s lvl hlvl => (hholds.2 s lvl).mp (hsub s lvl hlvl)⟩

end Pipeline

namespace LiveEngine

theorem Consistent.mem_tape {F : Type} [Double F] {parse : List UInt8 → Option (Json F)}
    {host : Host F} {symbol : List UInt8} {spread : F} {cfg : PipelineConfig F} {e : LiveEngine F}
    (h : Consistent parse host symbol spread cfg e) :
    ∀ ev, .process ev ∈ e.calls → ev ∈ (TradeTapeAdapter.onTrades (.new spread)
      (e.messages.flatMap (FinnhubClient.tradesOf parse))).1 := by
  intro ev hev
  rw [h.emitted_eq]
  have hsub := (h.delivered_prefix.sublist.trans h.pushed_sublist).trans
    (List.sublist_append_left _ e.callback.left)
  exact hsub.subset (List.mem_filterMap.mpr ⟨.process ev, hev, rfl⟩)

/-- **The live book never crosses**, for a spread of at least one tick and messages whose trades
have prices that fit their ticks: in every interleaving, also when the ring overflows and after every
resync, the pipeline's book has at most one level on each side and is not crossed; so no event is
counted as crossing, and the pipeline requotes after each event of its tape that can change the
book. -/
theorem live_never_crosses (parse : List UInt8 → Option (Json Rat64)) (host : Host Rat64)
    (symbol : List UInt8) {spread : Rat64} (hs : 1 / 10000 ≤ spread.val)
    (cfg : PipelineConfig Rat64) (actions : List LiveAction)
    (hfit : ∀ t ∈ (live parse host symbol spread cfg actions).messages.flatMap
      (FinnhubClient.tradesOf parse), TradeTapeAdapter.PricesFit spread t) :
    let e := live parse host symbol spread cfg actions
    let p := e.pipeline
    (∀ s, (p.book.levels s).length ≤ 1) ∧ p.book.crossed = false ∧
    p.stats.crossedBookEvents = 0 ∧
    p.stats.decisionLatency.count = (delivered e.calls).countP Pipeline.bookChanged := by
  intro e p
  have h : Consistent parse host symbol spread cfg e :=
    consistent_live parse host symbol spread cfg actions
  have hp : p = Pipeline.after host (Symbol.ofView symbol) cfg e.calls := h.pipeline
  have hmem := h.mem_tape
  obtain ⟨o, ho, hpart⟩ := Pipeline.part_after host (Symbol.ofView symbol) cfg hs hfit hmem
  have hordered := (Pipeline.after_steady host (Symbol.ofView symbol) cfg e.calls).ordered
  rw [← hp] at hpart hordered
  -- no state on the way was crossed either
  have hway : ∀ pre ev, pre ++ [.process ev] <+: e.calls →
      (run (Pipeline.call host) (.new (Symbol.ofView symbol) cfg)
        (pre ++ [.process ev])).book.crossed = false := by
    intro pre ev hpre
    obtain ⟨o', ho', hpart'⟩ := Pipeline.part_after host (Symbol.ofView symbol) cfg hs hfit
      fun ev' hev' => hmem ev' (hpre.subset hev')
    exact hpart'.crossed_eq ho'
  have htelemetry := Pipeline.counted_after host (Symbol.ofView symbol) cfg e.calls
  rw [← hp] at htelemetry
  refine ⟨hpart.length_le hordered, hpart.crossed_eq ho, ?_, ?_⟩
  · have hzero := Pipeline.tally_eq_zero host (.new (Symbol.ofView symbol) cfg)
      (fun q _ => q.book.crossed) hway
    exact htelemetry.crossedBookEvents.trans hzero
  · have hcount := Pipeline.tally_eq_countP host (.new (Symbol.ofView symbol) cfg)
      Pipeline.requotes Pipeline.bookChanged e.calls fun pre ev hpre => by
        unfold Pipeline.requotes
        rw [hway pre ev hpre]
        rfl
    rw [h.accepted_eq] at hcount
    exact htelemetry.decisions.trans hcount

theorem live_never_crosses_cents :
    let e := live sampleParse (lowHost Rat64) [65] ⟨1 / 50⟩ {} sampleFinished
    let p := e.pipeline
    p.stats.eventsProcessed = 3 ∧ (∀ s, (p.book.levels s).length = 1) ∧
    p.book.crossed = false ∧ p.stats.crossedBookEvents = 0 ∧
    p.stats.decisionLatency.count = (delivered e.calls).countP Pipeline.bookChanged := by
  have hs : 1 / 10000 ≤ Rat64.val ⟨1 / 50⟩ := by norm_num
  obtain ⟨-, hcrossed, hcount, hrequotes⟩ :=
    live_never_crosses sampleParse (lowHost Rat64) [65] hs {} sampleFinished (by decide +kernel)
  exact ⟨by decide +kernel, fun s => by cases s <;> decide +kernel, hcrossed, hcount, hrequotes⟩

end LiveEngine

end Lob
