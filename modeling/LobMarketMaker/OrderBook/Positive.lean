import LobMarketMaker.OrderBook.LastWriter

/-!
# Positive books

A level holds the quantity of the last quote at its price. A quote of a negative quantity is no
deletion: it puts up a level.

* `Positive`: every level holds something; `after_positive`: quotes that are not negative keep it;
* `positive_iff`: and no other quotes do.
-/

set_option autoImplicit false

namespace Lob

namespace OrderBook

/-- Every level has a positive quantity. -/
def Positive (b : OrderBook) : Prop := ∀ s, ∀ lvl ∈ b.levels s, 0 < lvl.quantity

/-- No quote has a negative quantity. -/
def QuotesNonneg (evs : List MarketEvent) : Prop := ∀ ev ∈ evs, ev.type = .quote → 0 ≤ ev.quantity

/-- **A level holds the quantity of a quote.** -/
theorem after_positive (sym : Symbol) {evs : List MarketEvent} (h : QuotesNonneg evs) :
    (after sym evs).Positive := by
  intro s lvl hlvl
  obtain ⟨pre, ev, post, rfl, -, hquote, hq, hne, -⟩ := ((after_spec sym evs).2 s lvl).mp hlvl
  have h0 : 0 ≤ ev.quantity := h ev (by simp) hquote
  rw [hq] at h0
  exact lt_of_le_of_ne h0 (Ne.symm hne)

theorem mem_levels_of_quote (sym : Symbol) (pre : List MarketEvent) {ev : MarketEvent}
    (hquote : ev.type = .quote) (hne : ev.quantity ≠ 0) :
    ⟨ev.price, ev.quantity⟩ ∈ (after sym (pre ++ [ev])).levels ev.side.book := by
  refine ((after_spec sym _).2 _ _).mpr
    ⟨pre, ev, [], rfl, ⟨.inl hquote, rfl, rfl⟩, hquote, rfl, hne, ?_⟩
  exact fun e he => absurd he List.not_mem_nil

/-- **Exactly these runs of events** give positive books throughout. -/
theorem positive_iff (sym : Symbol) (evs : List MarketEvent) :
    (∀ pre, pre <+: evs → (after sym pre).Positive) ↔ QuotesNonneg evs := by
  constructor
  · intro h ev hev hquote
    obtain ⟨pre, post, rfl⟩ := List.append_of_mem hev
    by_contra hneg
    have hmem := mem_levels_of_quote sym pre hquote (not_le.mp hneg).ne
    have hpre : pre ++ [ev] <+: pre ++ ev :: post := ⟨post, by simp⟩
    exact hneg (h _ hpre _ _ hmem).le
  · exact fun h pre hpre => after_positive sym fun ev hev => h ev (hpre.subset hev)

end OrderBook

end Lob
