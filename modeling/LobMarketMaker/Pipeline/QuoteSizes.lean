import LobMarketMaker.Pipeline.Hysteresis

/-!
# Partially filled quotes are kept

A requote compares its target with the size that a quote was submitted with. A quote of which a part
was filled since then is kept like any other, and shows the market what is left of it.

* `KeptOrFresh`: an open order is one from before, as it was, or an unfilled one; all that events
  other than trades do;
* **`requote_sizes`**: what every requote leaves open.
-/

set_option autoImplicit false

namespace Lob

open Foundation

theorem PaperExecutionEngine.mem_submitLimit {F : Type} [Double F] {host : Host F}
    {e : PaperExecutionEngine F} {id : OrderId} {symbol : Symbol} {side : Side} {price : Price}
    {quantity : Quantity} {now : Timestamp} {x : OrderId × Order}
    (h : x ∈ (e.submitLimit host id symbol side price quantity now).2.openOrders) :
    x ∈ e.openOrders ∨ x.2.filledQuantity = 0 := by
  unfold submitLimit assign at h
  dsimp only at h
  split_ifs at h
  · obtain ⟨y, hy, rfl⟩ := List.mem_map.mp h
    by_cases hid : y.1 = id
    · rw [if_pos hid]
      exact .inr rfl
    · rw [if_neg hid]
      exact .inl hy
  · rcases List.mem_cons.mp ((host.layout_perm _ _).mem_iff.mp h) with rfl | hx
    · exact .inr rfl
    · exact .inl hx

namespace Pipeline

variable {F : Type} [Double F] {host : Host F} {p q r : Pipeline F} {ev : MarketEvent}

/-- Every open order was open before, as it is, or nothing of it is filled. -/
def KeptOrFresh (p q : Pipeline F) : Prop :=
  ∀ x ∈ q.exec.openOrders, x ∈ p.exec.openOrders ∨ x.2.filledQuantity = 0

namespace KeptOrFresh

theorem of_sublist (h : q.exec.openOrders.Sublist p.exec.openOrders) : KeptOrFresh p q :=
  fun _ hx => .inl (h.subset hx)

theorem refl (p : Pipeline F) : KeptOrFresh p p := of_sublist (List.Sublist.refl _)

theorem trans (h : KeptOrFresh p q) (h' : KeptOrFresh q r) : KeptOrFresh p r := fun x hx =>
  (h' x hx).elim (h x) .inr

theorem blind (p : Pipeline F) : Blind (KeptOrFresh p) :=
  blind_of (fun _ h => h) (fun _ h => h)

theorem cancelSide (p : Pipeline F) (s : BookSide) (now : Timestamp) :
    KeptOrFresh p (p.cancelSide s now) := of_sublist (cancelSide_sublist p s now)

theorem cancelRestingQuotes (p : Pipeline F) (now : Timestamp) :
    KeptOrFresh p (p.cancelRestingQuotes now) :=
  (cancelSide p .bid now).trans (cancelSide _ .ask now)

theorem submit (host : Host F) (p : Pipeline F) (s : BookSide) (price : Price) (size : Quantity)
    (ref : F) (now : Timestamp) : KeptOrFresh p (p.submit host s price size ref now) := by
  intro x hx
  unfold Pipeline.submit at hx
  dsimp only at hx
  split_ifs at hx
  · exact .inl hx
  · rw [setResting_exec] at hx
    exact PaperExecutionEngine.mem_submitLimit hx

theorem withdraw (p : Pipeline F) (s : BookSide) (qd : QuoteDecision) (now : Timestamp) :
    KeptOrFresh p (p.withdraw s qd now) := by
  unfold Pipeline.withdraw
  split_ifs
  · exact refl p
  · exact cancelSide p s now

theorem replace (host : Host F) (p : Pipeline F) (s : BookSide) (qd : QuoteDecision) (ref : F)
    (ticks : ℤ) (now : Timestamp) : KeptOrFresh p (p.replace host s qd ref ticks now) := by
  unfold Pipeline.replace
  split_ifs
  · exact (cancelSide p s now).trans (submit host _ s _ _ _ _)
  · exact refl p

theorem requote (host : Host F) (p : Pipeline F) (now : Timestamp) :
    KeptOrFresh p (p.requote host now) :=
  requote_rule (blind p) (blind p)
    (fun _ h => requoteSides_rule (fun q s _ hq => hq.trans (withdraw q s _ now))
      (fun q s _ hq => hq.trans (replace host q s _ _ _ now)) h) (refl p)

theorem settle (host : Host F) (p : Pipeline F) (ev : MarketEvent) :
    KeptOrFresh p (p.settle host ev) := by
  unfold Pipeline.settle
  split_ifs
  · have h := cancelRestingQuotes
      { p with stats := { p.stats with crossedBookEvents := p.stats.crossedBookEvents + 1 } }
      ev.timestamp
    exact h
  · exact requote host p ev.timestamp
  · exact refl p

theorem execute (host : Host F) (h : ev.type ≠ .trade) (p : Pipeline F) :
    KeptOrFresh p (p.execute host ev) := by
  unfold Pipeline.execute
  rw [takeFills_of_ne h]
  unfold mark
  split
  · exact refl p
  · exact refl p

/-- **An accepted event that is no trade** fills nothing. -/
theorem process (host : Host F) (hd : p.outOfOrder ev = false) (h : ev.type ≠ .trade) :
    KeptOrFresh p (p.process host ev) :=
  process_rule (blind p) (blind p) (blind p) hd (of_sublist (intake_sublist p.counted ev))
    (fun _ hq => hq) (fun q hq => hq.trans (execute host h q))
    (fun q hq => hq.trans (settle host q ev))

end KeptOrFresh

/-! ## What a requote leaves open -/

/-- An accepted event that changes the book and leaves it uncrossed makes a requote, and the sizes
in the slots are those it decides. -/
theorem process_requoteOf (hd : p.outOfOrder ev = false) (hchanged : bookChanged ev = true)
    (huncrossed : (p.process host ev).book.crossed = false) :
    ∃ r, p.requoteOf host (.process ev) = some r ∧ ∀ s quote,
      (p.process host ev).resting s = some quote → quote.size = r.decision.size s := by
  have hbook : ¬ (p.counted.unsettled host ev).book.crossed = true := by
    rw [process_accepted hd, (SameFeed.settle host _ ev).book] at huncrossed
    rw [huncrossed]
    exact Bool.false_ne_true
  refine ⟨⟨(p.counted.unsettled host ev).decision host ev.timestamp,
    (p.counted.unsettled host ev).thresholdTicks (p.counted.unsettled host ev).referencePrice⟩, ?_,
    fun s quote h => ?_⟩
  · show (if p.outOfOrder ev then none else _) = _
    rw [hd, if_neg Bool.false_ne_true, if_neg hbook, if_pos hchanged]
  · rw [process_accepted hd, settle, if_neg hbook, if_pos hchanged] at h
    exact requote_size h

theorem Shows.exists_order {os : List (OrderId × Order)} {d : Desk} (h : Shows p os d)
    {s : BookSide} {quote : RestingQuote} (hs : p.resting s = some quote) :
    ∃ o, (∀ o', (quote.id, o') ∈ os ↔ o' = o) ∧ o.side = s.side ∧ o.quantity = quote.size ∧
      0 ≤ o.filledQuantity := by
  rw [h.slots] at hs
  obtain ⟨o, ho, rfl⟩ := Option.map_eq_some_iff.mp hs
  have hentry : o.entry ∈ os := h.entries.mem_iff.mpr (Desk.mem_entries.mpr ⟨s, o, ho, rfl⟩)
  refine ⟨o.toOrder, fun o' => ⟨fun ho' => ?_, ?_⟩, o.side_eq, rfl, o.filled_nonneg⟩
  · exact congrArg Prod.snd (List.inj_on_of_nodup_map h.nodup_keys ho' hentry rfl)
  · rintro rfl
    exact hentry

/-- **What a requote leaves open.** After every accepted event that changes the book and leaves it
uncrossed, the order resting on a side that is quoted was submitted with the size decided, and what
is left of it is that size less what was filled of it. Something was filled only of a quote that
rested before the event already, and was kept as it is. -/
theorem requote_sizes (host : Host F) (symbol : Symbol) (cfg : PipelineConfig F)
    (calls : List Call) {ev : MarketEvent}
    (hd : (after host symbol cfg calls).outOfOrder ev = false) (hchanged : bookChanged ev = true)
    (huncrossed : (after host symbol cfg (calls ++ [.process ev])).book.crossed = false) :
    let p := after host symbol cfg calls
    let p' := after host symbol cfg (calls ++ [.process ev])
    ∃ r, p.requoteOf host (.process ev) = some r ∧
      ∀ s quote, r.decision.quote s = true → p'.resting s = some quote →
        ∃ o, (∀ o', (quote.id, o') ∈ p'.exec.openOrders ↔ o' = o) ∧ o.side = s.side ∧
          o.quantity = r.decision.size s ∧
          o.remainingQuantity = r.decision.size s - o.filledQuantity ∧ 0 ≤ o.filledQuantity ∧
          (0 < o.filledQuantity → p.resting s = some quote ∧ (quote.id, o) ∈ p.exec.openOrders) := by
  intro p p'
  have hp' : p' = p.process host ev := run_concat _ _ _ _
  obtain ⟨d, hbefore⟩ : ∃ d, Shows p p.exec.openOrders d := after_shows host symbol cfg calls
  obtain ⟨d', hafter⟩ : ∃ d, Shows p' p'.exec.openOrders d := after_shows host symbol cfg _
  change p'.book.crossed = false at huncrossed
  rw [hp'] at hafter huncrossed ⊢
  obtain ⟨r, hr, hsizes⟩ := process_requoteOf hd hchanged huncrossed
  refine ⟨r, hr, fun s quote _ hs => ?_⟩
  obtain ⟨o, ho, hside, hquantity, hfilled⟩ := hafter.exists_order hs
  rw [hsizes s quote hs] at hquantity
  refine ⟨o, ho, hside, hquantity, ?_, hfilled, fun hpos => ?_⟩
  · rw [← hquantity]
    rfl
  · have hne : ev.type ≠ .trade := by
      intro ht
      unfold bookChanged at hchanged
      rw [ht] at hchanged
      cases hchanged
    have hopen := (ho o).mpr rfl
    rcases KeptOrFresh.process host hd hne _ hopen with hkept | hzero
    · obtain ⟨t, ht, hslot, -⟩ := hbefore.slot_of_mem hkept
      obtain ⟨t', ht', hslot', -⟩ := hafter.slot_of_mem hopen
      obtain rfl : t = s := BookSide.side_inj.mp (ht.symm.trans hside)
      obtain rfl : t' = t := BookSide.side_inj.mp (ht'.symm.trans hside)
      exact ⟨hslot.trans (hslot'.symm.trans hs), hkept⟩
    · exact absurd hzero hpos.ne'

/-- Each quote of the two loses a share to a trade. -/
def nibbled : List Call := tenCents ++
  [.process (.makeTrade 1 3 (.ofView [65]) .sell (.fromTicks 1000000) 1),
    .process (.makeTrade 1 4 (.ofView [65]) .buy (.fromTicks 1001000) 1)]

/-- The best bid with twice the quantity. -/
def grownBid : MarketEvent := .makeQuote 1 5 (.ofView [65]) .buy (.fromTicks 1000000) 200

theorem requote_sizes_nibbled :
    let p := after (lowHost ℚ) (.ofView [65]) {} nibbled
    let p' := after (lowHost ℚ) (.ofView [65]) {} (nibbled ++ [.process grownBid])
    ∃ r, p.requoteOf (lowHost ℚ) (.process grownBid) = some r ∧
      ∀ s quote, r.decision.quote s = true → p'.resting s = some quote →
        ∃ o, (quote.id, o) ∈ p'.exec.openOrders ∧
          o.remainingQuantity = r.decision.size s - o.filledQuantity := by
  have hd : (after (lowHost ℚ) (.ofView [65]) {} nibbled).outOfOrder grownBid = false := by
    decide +kernel
  obtain ⟨r, hr, hsizes⟩ := requote_sizes (lowHost ℚ) (.ofView [65]) {} nibbled hd
    (by decide +kernel) (by decide +kernel)
  refine ⟨r, hr, fun s quote hq hs => ?_⟩
  obtain ⟨o, ho, -, -, hremaining, -⟩ := hsizes s quote hq hs
  exact ⟨o, (ho o).mpr rfl, hremaining⟩

/-- **A requote that leaves nine of ten.** The decision is the one that the resting quotes were
submitted for, so both are kept. -/
theorem requote_undersized :
    let p := after (lowHost ℚ) (.ofView [65]) {} nibbled
    let p' := after (lowHost ℚ) (.ofView [65]) {} (nibbled ++ [.process grownBid])
    p.outOfOrder grownBid = false ∧ bookChanged grownBid = true ∧ p'.book.crossed = false ∧
      (∃ r ∈ p.requoteOf (lowHost ℚ) (.process grownBid),
        r.decision.quoteBid = true ∧ r.decision.bidSize = 10) ∧
      p'.restingBid = some ⟨1, ⟨1000000⟩, 10⟩ ∧
      (p'.exec.getOrder 1).map Order.remainingQuantity = some 9 := by
  decide +kernel

end Pipeline

end Lob
