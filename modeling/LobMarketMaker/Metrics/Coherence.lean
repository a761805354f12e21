import LobMarketMaker.Metrics.Microstructure
import LobMarketMaker.OrderBook.Positive
import Mathlib.Tactic.FieldSimp
import Mathlib.Tactic.Positivity

/-!
# The coherence of the microstructure metrics

Four formulas over the same two best levels, read with exact rationals.

* `imbalance_bounds`, `weighted_strictly_between`, `weighted_eq_middle_add`,
  `middle_lt_weighted_iff`: the formulas of two positive weights;
* `foldl_quantity`: the sum of the levels, up to a turn of 64 bits; `volume_pos`, `volume_le`: the
  first levels of a positive side hold something, and no more than the side;
* `topOfBookImbalance_eq_depthImbalance`: the top of the book is depth one, on every book;
* `depthImbalance_eq`, `topOfBookImbalance_eq`, `microprice_eq`: on a positive book with two sides
  no metric is missing, as long as the quantities can be added up;
* **`metrics_coherent`**: the range of the imbalance, and the microprice as the mid price moved by
  the imbalance; `metrics_coherent_fails`: past 64 bits the microprice leaves the spread.
-/

set_option autoImplicit false

namespace Lob

open Foundation

/-! ### Two positive weights -/

section Weights

variable {R : Type} [Field R] [LinearOrder R] [IsStrictOrderedRing R] {u v x y : R}

theorem imbalance_bounds (hu : 0 < u) (hv : 0 < v) :
    -1 < (u - v) / (u + v) ∧ (u - v) / (u + v) < 1 := by
  have hsum : 0 < u + v := add_pos hu hv
  constructor
  · rw [lt_div_iff₀ hsum]
    linarith
  · rw [div_lt_one hsum]
    linarith

theorem weighted_strictly_between (hu : 0 < u) (hv : 0 < v) (h : x < y) :
    x < (x * v + y * u) / (u + v) ∧ (x * v + y * u) / (u + v) < y := by
  have hsum : 0 < u + v := add_pos hu hv
  have hxy : x * u < y * u := mul_lt_mul_of_pos_right h hu
  have hxy' : x * v < y * v := mul_lt_mul_of_pos_right h hv
  constructor
  · rw [lt_div_iff₀ hsum, mul_add]
    linarith
  · rw [div_lt_iff₀ hsum, mul_add]
    linarith

/-- The same mean is the middle, moved by the imbalance of the weights. -/
theorem weighted_eq_middle_add (hu : 0 < u) (hv : 0 < v) :
    (x * v + y * u) / (u + v) = (x + y) / 2 + (u - v) / (u + v) * (y - x) / 2 := by
  have hsum : u + v ≠ 0 := (add_pos hu hv).ne'
  field_simp
  ring

theorem middle_lt_weighted_iff (hu : 0 < u) (hv : 0 < v) (h : x < y) :
    (x + y) / 2 < (x * v + y * u) / (u + v) ↔ v < u := by
  have hprod : (x * v + y * u) * 2 - (x + y) * (u + v) = (y - x) * (u - v) := by ring
  rw [div_lt_div_iff₀ two_pos (add_pos hu hv), ← sub_pos, hprod,
    mul_pos_iff_of_pos_left (sub_pos.mpr h), sub_pos]

end Weights

namespace MicrostructureCalculator

/-! ### Volumes -/

/-- The quantities of levels, added up. -/
def volume (l : List BookLevel) : ℤ := (l.map BookLevel.quantity).sum

theorem foldl_quantity (l : List BookLevel) :
    l.foldl (fun v lvl => wrapI64 (v + lvl.quantity)) 0 = wrapI64 (volume l) := by
  induction l using List.reverseRecOn with
  | nil => rfl
  | append_singleton l lvl ih =>
    have hvolume : volume (l ++ [lvl]) = volume l + lvl.quantity := by
      unfold volume
      rw [List.map_append, List.sum_append, List.map_singleton, List.sum_singleton]
    rw [List.foldl_append, ih, hvolume]
    exact wrapI64_add_left _ _

theorem volume_le {l : List BookLevel} (hpos : ∀ lvl ∈ l, 0 < lvl.quantity) (n : ℕ) :
    volume (l.take n) ≤ volume l := by
  have hdrop : 0 ≤ volume (l.drop n) := by
    refine List.sum_nonneg fun q hq => ?_
    obtain ⟨lvl, hlvl, rfl⟩ := List.mem_map.mp hq
    exact (hpos lvl (List.mem_of_mem_drop hlvl)).le
  have hsplit : volume l = volume (l.take n) + volume (l.drop n) := by
    unfold volume
    rw [← List.sum_append, ← List.map_append, List.take_append_drop]
  lia

theorem volume_pos {l : List BookLevel} (hne : l ≠ []) (hpos : ∀ lvl ∈ l, 0 < lvl.quantity) {n : ℕ}
    (hn : 1 ≤ n) : l.take (min n l.length) ≠ [] ∧ 0 < volume (l.take (min n l.length)) := by
  have hlen : 0 < l.length := List.length_pos_iff.mpr hne
  have htake : l.take (min n l.length) ≠ [] := by
    rw [ne_eq, List.take_eq_nil_iff]
    rintro (h | h)
    · omega
    · exact hne h
  refine ⟨htake, List.sum_pos _ ?_ ?_⟩
  · intro q hq
    obtain ⟨lvl, hlvl, rfl⟩ := List.mem_map.mp hq
    exact hpos lvl (List.mem_of_mem_take hlvl)
  · rwa [ne_eq, List.map_eq_nil_iff]

theorem inI64_of_sum {u v : ℤ} (hu : 0 < u) (hv : 0 < v) (hsum : u + v < 2 ^ 63) :
    InI64 (u - v) ∧ InI64 (u + v) := ⟨⟨by omega, by omega⟩, ⟨by omega, hsum⟩⟩

theorem guard_eq {u v : ℤ} (hu : 0 < u) (hv : 0 < v) (hsum : u + v < 2 ^ 63) (x : ℚ) :
    (if (ofInt (wrapI64 (u + v)) : ℚ) == ofInt 0 then none else some x) = some x := by
  refine if_neg ?_
  rw [wrapI64_of_inI64 (inI64_of_sum hu hv hsum).2, beq_iff_eq, ofInt_rat, ofInt_rat, Int.cast_inj]
  omega

theorem topOfBookImbalance_eq_depthImbalance {F : Type} [Double F] (b : OrderBook) :
    (topOfBookImbalance b : Option F) = depthImbalance b 1 := by
  unfold topOfBookImbalance depthImbalance OrderBook.bestBidQuantity OrderBook.bestAskQuantity
    OrderBook.bidDepth OrderBook.askDepth
  cases b.bids with
  | nil => rfl
  | cons bid bids =>
    cases b.asks with
    | nil => simp
    | cons ask asks => simp [wrapI64_sub, wrapI64_add_left, wrapI64_add_right]

/-! ### The metrics of a positive book -/

/-- The quantities of all levels of the book add up to an `int64_t`. -/
def TotalInRange (b : OrderBook) : Prop := volume b.bids + volume b.asks < 2 ^ 63

section Book

variable {b : OrderBook} (hpos : b.Positive) (hsum : TotalInRange b)

include hpos hsum

/-- **Every depth has an imbalance**, between two positive volumes. -/
theorem depthImbalance_eq (hb : b.bids ≠ []) (ha : b.asks ≠ []) {n : ℕ} (hn : 1 ≤ n) :
    ∃ u v : ℤ, 0 < u ∧ 0 < v ∧
      (depthImbalance b n : Option ℚ) = some (((u : ℚ) - v) / (u + v)) := by
  obtain ⟨hbids, hu⟩ : b.bidDepth n ≠ [] ∧ 0 < volume (b.bidDepth n) :=
    volume_pos hb (hpos .bid) hn
  obtain ⟨hasks, hv⟩ : b.askDepth n ≠ [] ∧ 0 < volume (b.askDepth n) :=
    volume_pos ha (hpos .ask) hn
  have hempty : ¬ ((b.bidDepth n).isEmpty || (b.askDepth n).isEmpty) = true := by
    rw [Bool.or_eq_true, List.isEmpty_iff, List.isEmpty_iff, not_or]
    exact ⟨hbids, hasks⟩
  have hle : volume (b.bidDepth n) + volume (b.askDepth n) < 2 ^ 63 :=
    (add_le_add (volume_le (hpos .bid) _) (volume_le (hpos .ask) _)).trans_lt hsum
  refine ⟨volume (b.bidDepth n), volume (b.askDepth n), hu, hv, ?_⟩
  have hguard := guard_eq hu hv hle
    (ofInt (wrapI64 (volume (b.bidDepth n) - volume (b.askDepth n))) /
      ofInt (wrapI64 (volume (b.bidDepth n) + volume (b.askDepth n))))
  unfold depthImbalance
  dsimp only
  rw [if_neg hempty, foldl_quantity, foldl_quantity, wrapI64_sub, wrapI64_add_left,
    wrapI64_add_right]
  obtain ⟨hdiff, hrange⟩ := inI64_of_sum hu hv hle
  refine hguard.trans ?_
  rw [wrapI64_of_inI64 hdiff, wrapI64_of_inI64 hrange, ofInt_rat, ofInt_rat, Int.cast_sub,
    Int.cast_add]

variable {bid ask : BookLevel} (hbid : b.bids.head? = some bid) (hask : b.asks.head? = some ask)

include hbid hask

theorem best_quantities :
    0 < bid.quantity ∧ 0 < ask.quantity ∧ bid.quantity + ask.quantity < 2 ^ 63 := by
  have hu := hpos .bid bid (List.mem_of_mem_head? hbid)
  have hv := hpos .ask ask (List.mem_of_mem_head? hask)
  have hfirst : ∀ {l : List BookLevel} {lvl : BookLevel}, l.head? = some lvl →
      volume (l.take 1) = lvl.quantity := by
    intro l lvl h
    obtain ⟨l', rfl⟩ := List.head?_eq_some_iff.mp h
    exact add_zero _
  have hbids := hfirst hbid ▸ volume_le (hpos .bid) 1
  have hasks := hfirst hask ▸ volume_le (hpos .ask) 1
  exact ⟨hu, hv, (add_le_add hbids hasks).trans_lt hsum⟩

theorem topOfBookImbalance_eq : (topOfBookImbalance b : Option ℚ) =
    some (((bid.quantity : ℚ) - ask.quantity) / (bid.quantity + ask.quantity)) := by
  obtain ⟨hu, hv, hlt⟩ := best_quantities hpos hsum hbid hask
  unfold topOfBookImbalance OrderBook.bestBidQuantity OrderBook.bestAskQuantity
  rw [hbid, hask]
  obtain ⟨hdiff, hrange⟩ := inI64_of_sum hu hv hlt
  refine (guard_eq hu hv hlt _).trans ?_
  rw [wrapI64_of_inI64 hdiff, wrapI64_of_inI64 hrange, ofInt_rat, ofInt_rat, Int.cast_sub,
    Int.cast_add]

theorem microprice_eq : (microprice b : Option ℚ) =
    some (((bid.price.toDouble : ℚ) * ask.quantity + ask.price.toDouble * bid.quantity) /
      (bid.quantity + ask.quantity)) := by
  obtain ⟨hu, hv, hlt⟩ := best_quantities hpos hsum hbid hask
  unfold microprice OrderBook.bestBid OrderBook.bestAsk OrderBook.bestBidQuantity
    OrderBook.bestAskQuantity
  rw [hbid, hask]
  refine (guard_eq hu hv hlt _).trans ?_
  rw [wrapI64_of_inI64 (inI64_of_sum hu hv hlt).2, ofInt_rat, ofInt_rat, ofInt_rat, Int.cast_add]

end Book

/-- What the metrics of a book say about each other. -/
structure Coherent (b : OrderBook) : Prop where
  depth : ∀ n ≥ 1, ∃ r : ℚ, depthImbalance b n = some r ∧ -1 < r ∧ r < 1
  top : (topOfBookImbalance b : Option ℚ) = depthImbalance b 1
  micro : ∃ mid spread top : ℚ, b.midPrice = some mid ∧ b.spread = some spread ∧
    topOfBookImbalance b = some top ∧ microprice b = some (mid + top * spread / 2)
  uncrossed : b.crossed = false → ∃ (bb ba : Price) (bq aq : Quantity) (mid micro : ℚ),
    b.bestBid = some bb ∧ b.bestAsk = some ba ∧
    b.bestBidQuantity = some bq ∧ b.bestAskQuantity = some aq ∧
    b.midPrice = some mid ∧ microprice b = some micro ∧
    bb.toDouble < micro ∧ micro < ba.toDouble ∧ (mid < micro ↔ aq < bq)

theorem coherent_of_positive {b : OrderBook} (hpos : b.Positive) (hsum : TotalInRange b)
    (hb : b.bids ≠ []) (ha : b.asks ≠ []) : Coherent b := by
  obtain ⟨bid, hbid⟩ := Option.ne_none_iff_exists'.mp (mt List.head?_eq_none_iff.mp hb)
  obtain ⟨ask, hask⟩ := Option.ne_none_iff_exists'.mp (mt List.head?_eq_none_iff.mp ha)
  obtain ⟨hu, hv, -⟩ := best_quantities hpos hsum hbid hask
  have hu' : (0 : ℚ) < bid.quantity := Int.cast_pos.mpr hu
  have hv' : (0 : ℚ) < ask.quantity := Int.cast_pos.mpr hv
  have hbb : b.bestBid = some bid.price := congrArg (Option.map BookLevel.price) hbid
  have hba : b.bestAsk = some ask.price := congrArg (Option.map BookLevel.price) hask
  have hmid : (b.midPrice : Option ℚ) = some ((bid.price.toDouble + ask.price.toDouble) / 2) :=
    OrderBook.midPrice_eq_some_iff.mpr ⟨_, _, hbb, hba, rfl⟩
  have hspread : (b.spread : Option ℚ) = some (ask.price.toDouble - bid.price.toDouble) := by
    unfold OrderBook.spread
    rw [hbb, hba]
  have hmicro := microprice_eq hpos hsum hbid hask
  constructor
  · intro n hn
    obtain ⟨u, v, hu, hv, hr⟩ := depthImbalance_eq hpos hsum hb ha hn
    exact ⟨_, hr, imbalance_bounds (Int.cast_pos.mpr hu) (Int.cast_pos.mpr hv)⟩
  · exact topOfBookImbalance_eq_depthImbalance b
  · refine ⟨_, _, _, hmid, hspread, topOfBookImbalance_eq hpos hsum hbid hask, ?_⟩
    rw [hmicro, weighted_eq_middle_add hu' hv']
  · intro hcrossed
    have hticks : bid.price.ticks < ask.price.ticks := by
      unfold OrderBook.crossed at hcrossed
      rw [hbb, hba] at hcrossed
      exact not_le.mp (of_decide_eq_false hcrossed)
    have hlt : (bid.price.toDouble : ℚ) < ask.price.toDouble := by
      have hcast : (bid.price.ticks : ℚ) < ask.price.ticks := Int.cast_lt.mpr hticks
      rw [Price.toDouble_rat, Price.toDouble_rat]
      linarith
    obtain ⟨hlow, hhigh⟩ := weighted_strictly_between hu' hv' hlt
    refine ⟨bid.price, ask.price, bid.quantity, ask.quantity, _, _, hbb, hba, ?_, ?_, hmid, hmicro,
      hlow, hhigh, ?_⟩
    · exact congrArg (Option.map BookLevel.quantity) hbid
    · exact congrArg (Option.map BookLevel.quantity) hask
    · rw [middle_lt_weighted_iff hu' hv' hlt, Int.cast_lt]

/-- **The metrics are coherent** on every two-sided book that events without negative quantities
lead to, as long as the quantities of its levels together are below `2 ^ 63`. -/
theorem metrics_coherent (sym : Symbol) {evs : List MarketEvent} (h : OrderBook.QuotesNonneg evs)
    (hb : (OrderBook.after sym evs).bids ≠ []) (ha : (OrderBook.after sym evs).asks ≠ [])
    (hsum : TotalInRange (OrderBook.after sym evs)) : Coherent (OrderBook.after sym evs) :=
  coherent_of_positive (OrderBook.after_positive sym h) hsum hb ha

/-- A bid at 100.00 and an ask at 100.10. -/
def dimeQuotes (bid ask : Quantity) : List MarketEvent :=
  [.makeQuote 1 1 (.ofView [65]) .buy (.fromTicks 1000000) bid,
    .makeQuote 2 2 (.ofView [65]) .sell (.fromTicks 1001000) ask]

theorem metrics_coherent_dime : Coherent (OrderBook.after (.ofView [65]) (dimeQuotes 5 3)) :=
  metrics_coherent _ (by unfold OrderBook.QuotesNonneg; decide) (by decide) (by decide)
    (by unfold TotalInRange; decide)

/-- **A sum that wraps around** takes the microprice out of the spread. -/
theorem metrics_coherent_fails :
    ¬ ∀ (sym : Symbol) (evs : List MarketEvent), OrderBook.QuotesNonneg evs →
      (OrderBook.after sym evs).bids ≠ [] → (OrderBook.after sym evs).asks ≠ [] →
      Coherent (OrderBook.after sym evs) := by
  intro h
  have hbook := h (.ofView [65]) (dimeQuotes (2 ^ 62 + 2 ^ 61) (2 ^ 62))
    (by unfold OrderBook.QuotesNonneg; decide) (by decide) (by decide)
  obtain ⟨bb, ba, bq, aq, mid, micro, hbb, -, -, -, -, hmicro, hlow, -⟩ :=
    hbook.uncrossed (by decide)
  have hbest : (OrderBook.after (.ofView [65]) (dimeQuotes (2 ^ 62 + 2 ^ 61) (2 ^ 62))).bestBid =
      some (.fromTicks 1000000) := by decide
  have hwrapped : (microprice (OrderBook.after (.ofView [65])
      (dimeQuotes (2 ^ 62 + 2 ^ 61) (2 ^ 62))) : Option ℚ) = some (-5003 / 30) := by decide +kernel
  obtain rfl := Option.some.inj (hbest.symm.trans hbb)
  obtain rfl := Option.some.inj (hwrapped.symm.trans hmicro)
  exact absurd hlow (by decide +kernel)

end MicrostructureCalculator

end Lob
