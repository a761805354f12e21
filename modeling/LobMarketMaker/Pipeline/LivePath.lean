import LobMarketMaker.MarketData.Overlay
import LobMarketMaker.Pipeline.ForeignSymbol
import LobMarketMaker.Pipeline.Redelivery
import LobMarketMaker.Pipeline.Resync

/-!
# Mid prices on the live path

The parser lets through positive prices only. The adapter then moves a price by half the spread to
either side and rounds both sides to ticks, the book averages them, and the log returns divide by
the average.

* `HalfTickBetween`, `AskFits`, `aboveZero_iff`: the trades whose rounded prices have a positive
  average;
* `MidsPositive`, `midsPositive_after`: a pipeline that is fed such trades sees positive mid prices;
* `paired_book`: the two quotes that end a trade's batch reach the book together;
* **`mids_positive_iff`**.
-/

set_option autoImplicit false

namespace Lob

open Foundation OrderBook TradeTapeAdapter

/-! ## One trade -/

/-- The average of the two prices is positive. -/
def AboveZero (bid ask : Price) : Prop := 0 < bid.ticks + ask.ticks

/-- A whole number of ticks and a half lies above `spread / 2 - price` and not above
`spread / 2 + price`. -/
def HalfTickBetween (spread : Rat64) (trade : FinnhubTrade Rat64) : Prop :=
  ∃ k : ℤ, (spread.val / 2 - trade.price.val) * 10000 < k + 1 / 2 ∧
    (k : ℚ) + 1 / 2 ≤ (spread.val / 2 + trade.price.val) * 10000

/-- The ask of the trade is not too large for its ticks. -/
def AskFits (spread : Rat64) (trade : FinnhubTrade Rat64) : Prop :=
  (trade.price.val + spread.val / 2) * 10000 < 2 ^ 63 - 1 / 2

section Trade

variable {spread : Rat64} {trade : FinnhubTrade Rat64}

/-- For a positive spread and a positive price the ask is the greater one, so both prices fit. -/
theorem pricesFit_iff (hs : 0 < spread.val) (hp : 0 < trade.price.val) :
    PricesFit spread trade ↔ AskFits spread trade := by
  constructor
  · intro h
    exact h.ask.2
  · intro h
    unfold AskFits at h
    exact ⟨⟨by linarith, by linarith⟩, ⟨by linarith, h⟩⟩

/-- **The rounded prices** of a trade have a positive average exactly if a half tick keeps them from
rounding to the same distance from zero and the greater one fits. -/
theorem aboveZero_iff (hs : 0 < spread.val) (hp : 0 < trade.price.val) :
    AboveZero ((new spread).newBid trade) ((new spread).newAsk trade) ↔
      HalfTickBetween spread trade ∧ AskFits spread trade := by
  by_cases hfits : AskFits spread trade
  · have hprices := (pricesFit_iff hs hp).mpr hfits
    have hneg : (trade.price.val - spread.val / 2) * 10000 =
      -((spread.val / 2 - trade.price.val) * 10000) := by ring
    have hiff := roundAway_lt_iff_of_neg_le (x := (spread.val / 2 - trade.price.val) * 10000)
      (y := (spread.val / 2 + trade.price.val) * 10000) (by linarith) (by linarith)
    rw [and_iff_left hfits, HalfTickBetween, ← hiff, AboveZero, hprices.newBid_ticks,
      hprices.newAsk_ticks, hneg, roundAway_neg, add_comm trade.price.val]
    constructor <;> intro h <;> linarith
  · -- the ask becomes the least price, and no bid makes up for it
    have hlarge : ¬ InI64 (roundAway ((trade.price.val + spread.val / 2) * 10000)) := by
      rw [inI64_roundAway_iff]
      exact fun h => hfits h.2
    refine iff_of_false (fun h => ?_) fun h => hfits h.2
    have hbid := (inI64_castI64 (roundAway ((trade.price.val - spread.val / 2) * 10000))).2
    rw [AboveZero, newBid_ticks, newAsk_ticks, castI64_of_not hlarge] at h
    omega

theorem halfTickBetween_of_le (h : 1 / 20000 ≤ trade.price.val) : HalfTickBetween spread trade := by
  have h₁ := Int.floor_le ((spread.val / 2 - trade.price.val) * 10000 + 1 / 2)
  have h₂ := Int.lt_floor_add_one ((spread.val / 2 - trade.price.val) * 10000 + 1 / 2)
  exact ⟨⌊(spread.val / 2 - trade.price.val) * 10000 + 1 / 2⌋, by linarith, by linarith⟩

end Trade

/-! ## Mid prices -/

namespace OrderBook

variable {b : OrderBook}

theorem midPrice_of_best {bid ask : Price} (hbid : b.bestBid = some bid)
    (hask : b.bestAsk = some ask) :
    ∃ mid : Rat64, b.midPrice = some mid ∧ mid.val = ((bid.ticks + ask.ticks : ℤ) : ℚ) / 20000 :=
  ⟨_, midPrice_eq_some_iff.mpr ⟨bid, ask, hbid, hask, rfl⟩, average_toDouble bid ask⟩

theorem exists_level {s : BookSide} {px : Price}
    (h : (b.levels s).head?.map BookLevel.price = some px) :
    ∃ lvl ∈ b.levels s, lvl.price = px := by
  obtain ⟨lvl, hlvl, rfl⟩ := Option.map_eq_some_iff.mp h
  exact ⟨lvl, List.mem_of_head? hlvl, rfl⟩

section Part

variable {o : Overlay} (hsub : ∀ s, ∀ lvl ∈ b.levels s, o s = some lvl)

include hsub

/-- **The mid price of a part of an overlay.** -/
theorem midPrice_pos (ho : o.Pairs AboveZero) {mid : Rat64} (h : b.midPrice = some mid) :
    0 < mid.val := by
  obtain ⟨bid, ask, hbid, hask, rfl⟩ := midPrice_eq_some_iff.mp h
  obtain ⟨lvl, hlvl, rfl⟩ := exists_level (b := b) (s := .bid) hbid
  obtain ⟨lvl', hlvl', rfl⟩ := exists_level (b := b) (s := .ask) hask
  have hpos : 0 < lvl.price.ticks + lvl'.price.ticks :=
    ho lvl lvl' (hsub .bid lvl hlvl) (hsub .ask lvl' hlvl')
  have hpos' : (0 : ℚ) < ((lvl.price.ticks + lvl'.price.ticks : ℤ) : ℚ) := by exact_mod_cast hpos
  rw [average_toDouble]
  linarith

theorem best_of_mem {s : BookSide} {lvl : BookLevel} (hlvl : lvl ∈ b.levels s) :
    (b.levels s).head?.map BookLevel.price = some lvl.price := by
  have hlast := hsub s lvl hlvl
  cases hl : b.levels s with
  | nil =>
    rw [hl] at hlvl
    cases hlvl
  | cons head tail =>
    have hhead := hsub s head (by rw [hl]; exact List.mem_cons_self)
    rw [hhead] at hlast
    exact congrArg (fun l : Option BookLevel => l.map BookLevel.price) hlast

end Part

theorem mem_quotes (hb : b.Ordered) (ts : Timestamp) (seq seq' : SequenceNumber) (sym : Symbol)
    (bid ask : Price) {qty : Quantity} (hq : qty ≠ 0) :
    let b' := (b.apply (.makeQuote ts seq sym .buy bid qty)).apply
      (.makeQuote ts seq' sym .sell ask qty)
    ⟨bid, qty⟩ ∈ b'.levels .bid ∧ ⟨ask, qty⟩ ∈ b'.levels .ask := by
  intro b'
  have hb' := hb.apply (.makeQuote ts seq sym .buy bid qty)
  have hquote : ∀ side px n,
      (MarketEvent.makeQuote ts n sym side px qty).type ≠ .snapshot := fun _ _ _ => nofun
  have hbid : (MarketEvent.makeQuote ts seq sym .buy bid qty).Writes .bid bid :=
    MarketEvent.writes_makeQuote.mpr ⟨rfl, rfl⟩
  have hask : (MarketEvent.makeQuote ts seq' sym .sell ask qty).Writes .ask ask :=
    MarketEvent.writes_makeQuote.mpr ⟨rfl, rfl⟩
  have hother : ¬ (MarketEvent.makeQuote ts seq' sym .sell ask qty).Writes .bid bid :=
    fun h => nomatch (MarketEvent.writes_makeQuote.mp h).1
  constructor
  · rw [mem_apply hb', LevelAfter, if_neg (hquote _ _ _), if_neg hother, mem_apply hb, LevelAfter,
      if_neg (hquote _ _ _), if_pos hbid]
    exact ⟨rfl, rfl, hq⟩
  · rw [mem_apply hb', LevelAfter, if_neg (hquote _ _ _), if_pos hask]
    exact ⟨rfl, rfl, hq⟩

end OrderBook

namespace Pipeline

/-- The mid price of the book and the last one that the calculator has stored are positive. These
are the ones that an update of the price history stores and divides by. -/
structure MidsPositive (p : Pipeline Rat64) : Prop where
  book : ∀ mid : Rat64, p.book.midPrice = some mid → 0 < mid.val
  last : ∀ mid : Rat64, p.micro.lastMid = some mid → 0 < mid.val

section Events

variable {F : Type} [Double F] {host : Host F} {p : Pipeline F}

theorem lastMid_process (ev : MarketEvent) {mid : F}
    (h : (p.process host ev).micro.lastMid = some mid) :
    (p.process host ev).book.midPrice = some mid ∨ p.micro.lastMid = some mid := by
  cases hd : p.outOfOrder ev with
  | true =>
    rw [process_dropped hd] at h
    exact .inr h
  | false =>
    have hfor : ∀ last : F, (p.microFor ev).lastMid = some last → p.micro.lastMid = some last := by
      intro last hlast
      unfold microFor at hlast
      split_ifs at hlast
      · cases hlast
      · exact hlast
    have hmicro : ((p.microFor ev).onBookUpdate host.toLibm ((p.bookFor ev).apply ev)).lastMid =
        some mid := by
      rw [process_micro host hd, microAfter] at h
      split_ifs at h
      · exact h
      · exact h
    rw [(process_book host hd).1]
    cases hmid : (((p.bookFor ev).apply ev).midPrice : Option F) with
    | none =>
      rw [MicrostructureCalculator.onBookUpdate, hmid] at hmicro
      exact .inr (hfor mid hmicro)
    | some m =>
      rw [MicrostructureCalculator.lastMid_onBookUpdate hmid] at hmicro
      exact .inl hmicro

theorem exists_prefix (host : Host F) (symbol : Symbol) (cfg : PipelineConfig F)
    {es : List MarketEvent} (hes : Consecutive es) {calls : List Call}
    (hcalls : ∀ ev, .process ev ∈ calls → ev ∈ es) :
    ∃ pre, pre <+: es ∧ ∀ s, ∀ lvl ∈ (after host symbol cfg calls).book.levels s,
      lvl ∈ (OrderBook.after symbol pre).levels s := by
  rcases after_synced host symbol cfg hes hcalls with h | ⟨pre, seg, ev, post, h⟩
  · refine ⟨[], List.nil_prefix, fun s lvl hlvl => ?_⟩
    rw [h.levels] at hlvl
    cases hlvl
  · refine ⟨pre ++ (seg ++ [ev]), ⟨post, by rw [h.stream]; simp⟩, fun s lvl hlvl => ?_⟩
    rw [h.levels] at hlvl
    exact OrderBook.mem_levels_of_suffix hlvl pre

end Events

/-- **Fed with a stream whose books have positive mid prices**, in whatever order and with whatever
losses, a pipeline stores and divides by positive mid prices only. -/
theorem midsPositive_after (host : Host Rat64) (symbol : Symbol) (cfg : PipelineConfig Rat64)
    {es : List MarketEvent} (hes : Consecutive es)
    (hbooks : ∀ pre, pre <+: es → ∃ o, Holds (OrderBook.after symbol pre) o ∧ o.Pairs AboveZero)
    {calls : List Call} (hcalls : ∀ ev, .process ev ∈ calls → ev ∈ es) :
    MidsPositive (after host symbol cfg calls) := by
  have hbook : ∀ cs : List Call, (∀ ev, .process ev ∈ cs → ev ∈ es) → ∀ mid : Rat64,
      (after host symbol cfg cs).book.midPrice = some mid → 0 < mid.val := by
    intro cs hcs mid hmid
    obtain ⟨pre, hpre, hsub⟩ := exists_prefix host symbol cfg hes hcs
    obtain ⟨o, hholds, ho⟩ := hbooks pre hpre
    exact OrderBook.midPrice_pos (fun s lvl hlvl => (hholds.2 s lvl).mp (hsub s lvl hlvl)) ho hmid
  refine ⟨hbook calls hcalls, ?_⟩
  induction calls using List.reverseRecOn with
  | nil =>
    intro mid hmid
    cases hmid
  | append_singleton calls c ih =>
    intro mid hmid
    have ih' := ih fun ev hev => hcalls ev (List.mem_append_left _ hev)
    have hnow := hbook (calls ++ [c]) hcalls mid
    rw [after, run_concat] at hmid hnow
    cases c with
    | process ev =>
      rcases lastMid_process ev hmid with h | h
      · exact hnow h
      · exact ih' mid h
    | onClock now =>
      refine ih' mid ((congrArg MicrostructureCalculator.lastMid ?_).symm.trans hmid)
      exact onClock_micro _ now

/-! ## Deliveries in order -/

section Deliveries

variable {F : Type} [Double F]

omit [Double F] in
theorem consecutive_of_emitted {R : Price → Price → Prop} {symbol : Symbol}
    {s : List MarketEvent × TradeTapeAdapter F} {o : Overlay} (h : Emitted R symbol s o) :
    Consecutive s.1 := by
  have hchain := List.isChain_range' 1 s.1.length 1
  rw [← h.sequences, List.isChain_map] at hchain
  exact hchain

theorem mem_of_mem_process (es : List MarketEvent) :
    ∀ ev, .process ev ∈ es.map Call.process → ev ∈ es := by
  intro ev hev
  obtain ⟨x, hx, ⟨⟩⟩ := List.mem_map.mp hev
  exact hx

theorem mem_of_delivered {calls : List Call} {es : List MarketEvent} (h : delivered calls <+: es) :
    ∀ ev, .process ev ∈ calls → ev ∈ es :=
  fun ev hev => h.subset (List.mem_filterMap.mpr ⟨.process ev, hev, rfl⟩)

theorem delivered_process (es : List MarketEvent) : delivered (es.map Call.process) = es := by
  rw [delivered, List.filterMap_map]
  exact List.filterMap_some

/-! ## A trade's two quotes -/

theorem Synced.outOfOrder_eq {symbol : Symbol} {es acc : List MarketEvent} {p : Pipeline F}
    {ev : MarketEvent} (h : Synced symbol es acc p) (hes : Consecutive (es ++ ev :: [])) :
    p.outOfOrder ev = false := by
  unfold outOfOrder
  rcases h with h | ⟨pre, seg, last, post, h⟩
  · rw [h.lastSequence]
    rfl
  · have hlt : last.sequence < ev.sequence := hes.split.1 last (by rw [h.stream]; simp)
    rw [h.last]
    exact decide_eq_false (not_le.mpr hlt)

/-- **The next event, with the same timestamp,** is accepted and clears nothing. -/
theorem Heard.next {p p' : Pipeline F} {ev ev' : MarketEvent} (h : Heard p ev p')
    (hseq : ev'.sequence = ev.sequence + 1) (hts : ev'.timestamp = ev.timestamp)
    (hthreshold : 0 ≤ p.staleThreshold) :
    p'.outOfOrder ev' = false ∧ p'.bookFor ev' = p'.book := by
  have hgap : p'.gap ev' = false := by
    unfold gap
    rw [h.lastSequence, hseq]
    exact decide_eq_false (not_not.mpr rfl)
  have hstale : p'.stale ev' = false := by
    unfold stale
    rw [h.lastEventTs, hts, h.staleThreshold]
    exact decide_eq_false (by rw [sub_self]; exact not_lt.mpr hthreshold)
  constructor
  · unfold outOfOrder
    rw [h.lastSequence, hseq]
    exact decide_eq_false (Nat.not_succ_le_self _)
  · rw [bookFor, hgap, hstale]
    rfl

/-- **Two events in a row with one timestamp** meet the same book: nothing is cleared in between. -/
theorem paired_book (host : Host F) (symbol : Symbol) (cfg : PipelineConfig F)
    {earlier : List MarketEvent} {q₁ q₂ : MarketEvent}
    (hes : Consecutive (earlier ++ [q₁] ++ [q₂])) (hts : q₂.timestamp = q₁.timestamp)
    (hthreshold : 0 ≤ (new symbol cfg).staleThreshold) :
    ∃ b : OrderBook, b.Ordered ∧
      (after host symbol cfg ((earlier ++ [q₁] ++ [q₂]).map Call.process)).book =
        (b.apply q₁).apply q₂ := by
  have hes₁ : Consecutive (earlier ++ q₁ :: []) := hes.left_of_append
  have hsynced := after_synced host symbol cfg hes₁.left_of_append (mem_of_mem_process earlier)
  have hordered := (after_steady host symbol cfg (earlier.map Call.process)).ordered
  have hthreshold' := (after_trackers host symbol cfg (earlier.map Call.process)).staleThreshold
  rw [List.map_append, List.map_append, List.map_singleton, List.map_singleton, after, run_concat,
    run_concat]
  change Synced symbol earlier _ (run (call host) _ _) at hsynced
  change (run (call host) _ _).book.Ordered at hordered
  change (run (call host) _ _).staleThreshold = _ at hthreshold'
  generalize run (call host) (new symbol cfg) (earlier.map Call.process) = p
    at hsynced hordered hthreshold'
  have hd₁ := hsynced.outOfOrder_eq hes₁
  have hseq : q₂.sequence = q₁.sequence + 1 := by
    have hes₂ : Consecutive (earlier ++ q₁ :: ([] ++ q₂ :: [])) := by
      rw [List.append_assoc] at hes
      exact hes
    exact hes₂.next_iff.mpr rfl
  obtain ⟨hd₂, hfor⟩ := (heard_process host hd₁).next hseq hts (hthreshold'.symm ▸ hthreshold)
  refine ⟨p.bookFor q₁, bookFor_ordered hordered q₁, ?_⟩
  show ((p.process host q₁).process host q₂).book = _
  rw [(process_book host hd₂).1, hfor, (process_book host hd₁).1]

end Deliveries

/-- **After the two quotes** the mid price of the book is theirs. -/
theorem midPrice_after_quotes (host : Host Rat64) (symbol : Symbol) (cfg : PipelineConfig Rat64)
    (hthreshold : 0 ≤ (new symbol cfg).staleThreshold) {es earlier : List MarketEvent}
    {ts : Timestamp} {seq seq' : SequenceNumber} {sym : Symbol} {bid ask : Price} {qty : Quantity}
    (hes : Consecutive es) (hq : qty ≠ 0)
    (hend : es = earlier ++ [.makeQuote ts seq sym .buy bid qty] ++
      [.makeQuote ts seq' sym .sell ask qty])
    (hbooks : ∀ pre, pre <+: es → ∃ o, Holds (OrderBook.after symbol pre) o) :
    ∃ mid : Rat64, (after host symbol cfg (es.map Call.process)).book.midPrice = some mid ∧
      mid.val = ((bid.ticks + ask.ticks : ℤ) : ℚ) / 20000 := by
  obtain ⟨pre, hpre, hsub⟩ := exists_prefix host symbol cfg hes (mem_of_mem_process es)
  obtain ⟨o, hholds⟩ := hbooks pre hpre
  have hsub' := fun s lvl hlvl => (hholds.2 s lvl).mp (hsub s lvl hlvl)
  rw [hend] at hes
  obtain ⟨b, hb, hbook⟩ := paired_book host symbol cfg hes rfl hthreshold
  obtain ⟨hbid, hask⟩ := mem_quotes hb ts seq seq' sym bid ask hq
  rw [← hbook, ← hend] at hbid hask
  exact midPrice_of_best (best_of_mem hsub' hbid) (best_of_mem hsub' hask)

/-! ## The live path -/

/-- Pipelines that are fed the events of the tape in order see positive mid prices only. -/
def LiveMidsPositive (spread : Rat64) (trades : List (FinnhubTrade Rat64)) : Prop :=
  ∀ (host : Host Rat64) (symbol : Symbol) (cfg : PipelineConfig Rat64) (calls : List Call),
    delivered calls <+: (onTrades (.new spread) trades).1 →
      MidsPositive (after host symbol cfg calls)

/-- **A trade's own mid price** is among those that a pipeline fed up to that trade sees. -/
theorem aboveZero_of_live {spread : Rat64} {trades : List (FinnhubTrade Rat64)}
    (h : LiveMidsPositive spread trades) :
    ∀ t ∈ trades, AboveZero ((TradeTapeAdapter.new spread).newBid t)
      ((TradeTapeAdapter.new spread).newAsk t) := by
  intro t ht
  obtain ⟨front, back, rfl⟩ := List.append_of_mem ht
  have hprefix := prefix_onTrades (.new spread) (front ++ [t]) back
  rw [List.append_assoc, List.singleton_append] at hprefix
  -- what the adapter remembers before the trade, and the books up to its last event
  obtain ⟨_, -, hr, -⟩ :=
    onTrades_emitted (fun _ _ => True) (Symbol.ofView []) spread front fun _ _ => trivial
  obtain ⟨o, ho, -, -⟩ :=
    onTrades_emitted (fun _ _ => True) (Symbol.ofView []) spread (front ++ [t]) fun _ _ => trivial
  have hstep : onTrades (.new spread) (front ++ [t]) = onTrade (onTrades (.new spread) front) t :=
    run_concat _ _ _ _
  obtain ⟨earlier, seq, seq', -, hquotes⟩ := onTrade_quotes (onTrades (.new spread) front) t
  rw [← hstep, (quotes_congr t hr.halfSpread).1, (quotes_congr t hr.halfSpread).2] at hquotes
  have hq : quantity t ≠ 0 := by
    have := one_le_quantity t
    lia
  obtain ⟨mid, hmid, hval⟩ := midPrice_after_quotes (lowHost Rat64) (Symbol.ofView []) {}
    (by decide +kernel) (consecutive_of_emitted ho) hq hquotes fun pre hpre =>
      (ho.prefixes pre hpre).imp fun _ h => h.1
  have hfed := delivered_process (onTrades (.new spread) (front ++ [t])).1
  have hpositive := (h (lowHost Rat64) (Symbol.ofView []) {} _ (hfed.symm ▸ hprefix)).book _ hmid
  have hticks : (0 : ℚ) < (((TradeTapeAdapter.new spread).newBid t).ticks +
      ((TradeTapeAdapter.new spread).newAsk t).ticks : ℤ) := by linarith
  exact_mod_cast hticks

/-- **When the mid prices of the live path are positive.** For a positive spread and positive
prices: exactly if every trade of the tape has a half tick between the two and an ask that fits. -/
theorem mids_positive_iff {spread : Rat64} (hs : 0 < spread.val)
    {trades : List (FinnhubTrade Rat64)} (hp : ∀ t ∈ trades, 0 < t.price.val) :
    LiveMidsPositive spread trades ↔
      ∀ t ∈ trades, HalfTickBetween spread t ∧ AskFits spread t := by
  constructor
  · intro h t ht
    exact (aboveZero_iff hs (hp t ht)).mp (aboveZero_of_live h t ht)
  · intro h host symbol cfg calls hcalls
    obtain ⟨o, ho, -, -⟩ := onTrades_emitted AboveZero symbol spread trades fun t ht =>
      (aboveZero_iff hs (hp t ht)).mpr (h t ht)
    exact midsPositive_after host symbol cfg (consecutive_of_emitted ho) ho.prefixes
      (mem_of_delivered hcalls)

/-- A share at $100, then two at half a tick, in a spread of two cents. -/
def fallingTape : List (FinnhubTrade Rat64) :=
  [⟨[65], ⟨100⟩, ⟨1⟩, 0⟩, ⟨[65], ⟨1 / 20000⟩, ⟨2⟩, 1⟩]

theorem mids_positive_falling : LiveMidsPositive ⟨1 / 50⟩ fallingTape := by
  have hp : ∀ t ∈ fallingTape, 1 / 20000 ≤ t.price.val ∧ t.price.val ≤ 100 := by
    intro t ht
    simp only [fallingTape, List.mem_cons, List.not_mem_nil, or_false] at ht
    rcases ht with rfl | rfl <;> norm_num
  refine (mids_positive_iff (by norm_num) fun t ht => ?_).mpr fun t ht =>
    ⟨halfTickBetween_of_le (hp t ht).1, ?_⟩
  · linarith [(hp t ht).1]
  · unfold AskFits
    linarith [(hp t ht).2]

/-- **A tenth of a tick** rounds away: its bid is as far below zero as its ask is above. -/
theorem mids_not_positive :
    ¬ ∀ (spread : Rat64) (trades : List (FinnhubTrade Rat64)), 0 < spread.val →
      (∀ t ∈ trades, 0 < t.price.val) → LiveMidsPositive spread trades := by
  intro h
  have hlive := h ⟨1 / 50⟩ [⟨[65], ⟨1 / 100000⟩, ⟨1⟩, 0⟩] (by norm_num) (by simp)
  have habove := aboveZero_of_live hlive _ (List.mem_singleton_self _)
  revert habove
  unfold AboveZero
  decide +kernel

end Pipeline

end Lob
