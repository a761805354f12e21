import LobMarketMaker.OrderBook.Positive
import LobMarketMaker.Replay.RoundTrip

/-!
# Books replayed from a log

The log's quantities are signed and taken as they are, so a log can put up levels that hold less than
nothing. **`replay_positive_iff`**: exactly the logs without a negative quote do not.
-/

set_option autoImplicit false

namespace Lob

open Foundation OrderBook

/-- **When replayed books are positive.** Of a log that is accepted, every prefix of the events gives
a book of positive quantities exactly if no quote of the log has a negative quantity. -/
theorem replay_positive_iff (path : String) (bytes : List UInt8) (sym : Symbol) :
    ∀ evs, readEventsFromFile path (some bytes) = .ok evs →
      ((∀ pre, pre <+: evs → (after sym pre).Positive) ↔
        ∀ ev ∈ evs, ev.type = .quote → 0 ≤ ev.quantity) :=
  fun evs _ => positive_iff sym evs

/-- A quote of minus five shares. -/
def negativeQuote : MarketEvent := .makeQuote 1 1 (.ofView [65]) .buy (.fromTicks 1000000) (-5)

theorem replay_log {path : String} {evs : List MarketEvent} (h : ∀ ev ∈ evs, ev.Fits) :
    readEventsFromFile path (some (logBytes evs)) = .ok evs := by
  have hread := readEventsFromFile_logBytes_take path h (m := 8 + 50 * evs.length) (by omega)
  have hcount : (8 + 50 * evs.length - 8) / 50 = evs.length := by omega
  rw [List.take_of_length_le (length_logBytes evs).le, hcount, List.take_length] at hread
  exact hread

theorem negativeQuote_fits : ∀ ev ∈ [negativeQuote], ev.Fits := by
  intro ev hev
  obtain rfl := List.mem_singleton.mp hev
  exact ⟨by decide, by decide, by decide, by decide⟩

/-- **A negative level** is replayed. -/
theorem replay_negative :
    ¬ ∀ (path : String) (bytes : List UInt8) (sym : Symbol) (evs : List MarketEvent),
      readEventsFromFile path (some bytes) = .ok evs →
      ∀ pre, pre <+: evs → (after sym pre).Positive := by
  intro h
  have hpos := h "log" _ (.ofView [65]) _ (replay_log negativeQuote_fits) _ (List.prefix_refl _)
  have hquote : negativeQuote.type = .quote := rfl
  have hmem := mem_levels_of_quote (.ofView [65]) [] hquote (by decide)
  exact absurd (hpos _ _ hmem) (by decide)

/-- Five shares on either side; the bid is set to three shares, and the ask is deleted. -/
def fiveShares : List MarketEvent :=
  [.makeQuote 1 1 (.ofView [65]) .buy (.fromTicks 1000000) 5,
    .makeQuote 2 2 (.ofView [65]) .sell (.fromTicks 1000200) 5,
    .makeQuote 3 3 (.ofView [65]) .buy (.fromTicks 1000000) 3,
    .makeDelete 4 4 (.ofView [65]) .sell (.fromTicks 1000200)]

theorem replay_positive_fiveShares :
    readEventsFromFile "log" (some (logBytes fiveShares)) = .ok fiveShares ∧
      (∀ pre, pre <+: fiveShares → (after (.ofView [65]) pre).Positive) ∧
      (after (.ofView [65]) fiveShares).bids = [⟨⟨1000000⟩, 3⟩] ∧
      (after (.ofView [65]) fiveShares).asks = [] := by
  have hread : readEventsFromFile "log" (some (logBytes fiveShares)) = .ok fiveShares := by
    refine replay_log fun ev hev => ?_
    simp only [fiveShares, List.mem_cons, List.not_mem_nil, or_false] at hev
    rcases hev with rfl | rfl | rfl | rfl <;>
      exact ⟨by decide, by decide, by decide, by decide⟩
  exact ⟨hread, (replay_positive_iff "log" (logBytes fiveShares) (.ofView [65]) _ hread).mpr
    (by decide), by decide +kernel, by decide +kernel⟩

end Lob
