import LobMarketMaker.Execution.PaperExecutionEngine
import LobMarketMaker.Foundation.CheapestFirst
import LobMarketMaker.OrderBook.Positive
import Mathlib.Algebra.Order.BigOperators.Group.List
import Mathlib.Data.Finset.Max

/-!
# The sweep of a market order

`submit_market` walks the best 64 levels of the opposite side and takes from each what it still needs.

* `sweepTakes`: the amounts it takes; `sweep_filled`, `sweep_notional`: the two running totals are
  their sum and their cost;
* `sum_sweepTakes`: it gets what it asks for or all that the slice holds;
* **`market_short_iff`**: so it fills as much as the book has unless the order reaches past the slice;
* `cheapestFirst_sweepTakes`, **`sweep_best`**: no other way to take as many shares is better.
-/

set_option autoImplicit false

namespace Lob

open Foundation

namespace PaperExecutionEngine

/-- The levels a market order may trade with. -/
def oppositeLevels (book : OrderBook) (side : Side) : List BookLevel := book.levels side.book.other

/-- The part of them that the order looks at. -/
def oppositeDepth (book : OrderBook) (side : Side) : List BookLevel :=
  if side = .buy then book.askDepth 64 else book.bidDepth 64

/-- All the shares of some levels. -/
def sharesOf (levels : List BookLevel) : Quantity := (levels.map BookLevel.quantity).sum

/-- What the loop takes from each level if it may visit `n` of them. -/
def sweepTakes : ℕ → List BookLevel → Quantity → List Quantity
  | _, [], _ => []
  | 0, _ :: levels, remaining => 0 :: sweepTakes 0 levels remaining
  | n + 1, level :: levels, remaining =>
    let take := if remaining ≤ 0 then 0 else min remaining level.quantity
    take :: sweepTakes n levels (remaining - take)

theorem sharesOf_nonneg {levels : List BookLevel} (h : ∀ lvl ∈ levels, 0 ≤ lvl.quantity) :
    0 ≤ sharesOf levels := by
  refine List.sum_nonneg fun n hn => ?_
  obtain ⟨lvl, hl, rfl⟩ := List.mem_map.mp hn
  exact h lvl hl

theorem sharesOf_pos {levels : List BookLevel} (h : ∀ lvl ∈ levels, 0 < lvl.quantity)
    (hne : levels ≠ []) : 0 < sharesOf levels := by
  refine List.sum_pos _ (fun n hn => ?_) (mt List.map_eq_nil_iff.mp hne)
  obtain ⟨lvl, hl, rfl⟩ := List.mem_map.mp hn
  exact h lvl hl

theorem oppositeDepth_eq (book : OrderBook) (side : Side) :
    oppositeDepth book side = (oppositeLevels book side).take 64 := by
  unfold oppositeDepth oppositeLevels
  cases side with
  | buy => exact OrderBook.take_min_length book.asks 64
  | sell => exact OrderBook.take_min_length book.bids 64
  | unnamed raw h => exact OrderBook.take_min_length book.bids 64

/-! ## The amounts taken -/

theorem sweepTakes_zero (levels : List BookLevel) (remaining : Quantity) :
    ∀ m ∈ sweepTakes 0 levels remaining, m = 0 := by
  induction levels with
  | nil => exact fun m hm => absurd hm List.not_mem_nil
  | cons level levels ih =>
    intro m hm
    rcases List.mem_cons.mp hm with rfl | hm
    · rfl
    · exact ih m hm

theorem sweepTakes_of_nonpos {n : ℕ} {levels : List BookLevel} {remaining : Quantity}
    (h : remaining ≤ 0) : ∀ m ∈ sweepTakes n levels remaining, m = 0 := by
  induction levels generalizing n remaining with
  | nil => cases n <;> exact fun m hm => absurd hm List.not_mem_nil
  | cons level levels ih =>
    cases n with
    | zero => exact sweepTakes_zero _ _
    | succ n =>
      intro m hm
      rw [sweepTakes, if_pos h, sub_zero] at hm
      rcases List.mem_cons.mp hm with rfl | hm
      · rfl
      · exact ih h m hm

theorem cost_eq_zero_of_all {price : BookLevel → ℚ} {levels : List BookLevel} {ns : List ℤ}
    (h : ∀ m ∈ ns, m = 0) : cost price levels ns = 0 := by
  induction levels generalizing ns with
  | nil => rfl
  | cons level levels ih =>
    cases ns with
    | nil => rfl
    | cons n ns =>
      rw [cost_cons, h n List.mem_cons_self, ih fun m hm => h m (List.mem_cons_of_mem _ hm),
        Int.cast_zero, zero_mul, zero_add]

section Sweep

variable {F : Type} [Double F]

theorem sweep_filled (n : ℕ) (levels : List BookLevel) (remaining filled : Quantity)
    (notional : F) : (sweep (levels.take n) remaining filled notional).1 =
      filled + (sweepTakes n levels remaining).sum := by
  induction levels generalizing n remaining filled notional with
  | nil => cases n <;> exact (add_zero filled).symm
  | cons level levels ih =>
    cases n with
    | zero => rw [List.take_zero, sweep, List.sum_eq_zero (sweepTakes_zero _ _), add_zero]
    | succ n =>
      rw [List.take_succ_cons, sweep]
      split_ifs with h
      · rw [List.sum_eq_zero (sweepTakes_of_nonpos h), add_zero]
      · rw [ih, sweepTakes, if_neg h, List.sum_cons, add_assoc]

end Sweep

theorem sweep_notional (n : ℕ) (levels : List BookLevel) (remaining filled : Quantity)
    (notional : ℚ) : (sweep (levels.take n) remaining filled notional).2 =
      notional +
        cost (fun lvl => (lvl.price.toDouble : ℚ)) levels (sweepTakes n levels remaining) := by
  induction levels generalizing n remaining filled notional with
  | nil => cases n <;> exact (add_zero notional).symm
  | cons level levels ih =>
    cases n with
    | zero => rw [List.take_zero, sweep, cost_eq_zero_of_all (sweepTakes_zero _ _), add_zero]
    | succ n =>
      rw [List.take_succ_cons, sweep]
      split_ifs with h
      · rw [cost_eq_zero_of_all (sweepTakes_of_nonpos h), add_zero]
      · rw [ih, sweepTakes, if_neg h, cost_cons, add_assoc, ofInt_rat]

section Takes

variable {n : ℕ} {levels : List BookLevel} {q : Quantity}

theorem sum_sweepTakes (hpos : ∀ lvl ∈ levels, 0 ≤ lvl.quantity) (hq : 0 ≤ q) :
    (sweepTakes n levels q).sum = min q (sharesOf (levels.take n)) := by
  induction levels generalizing n q with
  | nil =>
    rw [List.take_nil]
    cases n <;> exact (min_eq_right hq).symm
  | cons level levels ih =>
    cases n with
    | zero =>
      rw [List.take_zero, List.sum_eq_zero (sweepTakes_zero _ _)]
      exact (min_eq_right hq).symm
    | succ n =>
      have hlevel := hpos level List.mem_cons_self
      have hrest := fun lvl hl => hpos lvl (List.mem_cons_of_mem _ hl)
      have htake : (if q ≤ 0 then 0 else min q level.quantity) = min q level.quantity := by
        split_ifs with h
        · rw [le_antisymm h hq, min_eq_left hlevel]
        · rfl
      have hshares : 0 ≤ sharesOf (levels.take n) :=
        sharesOf_nonneg fun lvl hl => hrest lvl (List.mem_of_mem_take hl)
      have hsplit : sharesOf ((level :: levels).take (n + 1)) =
          level.quantity + sharesOf (levels.take n) := rfl
      rw [sweepTakes, htake, List.sum_cons, ih hrest (by lia), hsplit]
      lia

theorem within_sweepTakes (hpos : ∀ lvl ∈ levels, 0 ≤ lvl.quantity) :
    Within BookLevel.quantity levels (sweepTakes n levels q) := by
  induction levels generalizing n q with
  | nil => cases n <;> exact .nil
  | cons level levels ih =>
    have hlevel := hpos level List.mem_cons_self
    have hrest := fun lvl hl => hpos lvl (List.mem_cons_of_mem _ hl)
    cases n with
    | zero => exact .cons ⟨le_refl _, hlevel⟩ (ih hrest)
    | succ n =>
      refine .cons ?_ (ih hrest)
      split_ifs with h
      · exact ⟨le_refl _, hlevel⟩
      · exact ⟨le_min (not_le.mp h).le hlevel, min_le_right _ _⟩

/-- **A level is swept before the next one is touched.** -/
theorem cheapestFirst_sweepTakes :
    CheapestFirst BookLevel.quantity levels (sweepTakes n levels q) := by
  induction levels generalizing n q with
  | nil => cases n <;> trivial
  | cons level levels ih =>
    cases n with
    | zero => exact ⟨fun _ => sweepTakes_zero levels q, ih⟩
    | succ n =>
      refine ⟨fun hleft => sweepTakes_of_nonpos ?_, ih⟩
      split_ifs at hleft ⊢ <;> lia

end Takes

/-! ## What a market order fills -/

section Short

variable {F : Type} [Double F] (e : PaperExecutionEngine F) (id : OrderId) (symbol : Symbol)
  (side : Side) (q : Quantity) (book : OrderBook) (now : Timestamp)

/-- The two totals of the loop. -/
def swept (F : Type) [Double F] (side : Side) (q : Quantity) (book : OrderBook) : Quantity × F :=
  sweep (oppositeDepth book side) q 0 (ofInt 0)

theorem submitMarket_fillQuantity :
    (e.submitMarket id symbol side q book now).1.fillQuantity = (swept F side q book).1 := rfl

theorem submitMarket_fillPrice :
    (e.submitMarket id symbol side q book now).1.fillPrice =
      if (swept F side q book).1 > 0 then
        Price.fromDouble ((swept F side q book).2 / ofInt (swept F side q book).1)
      else {} := rfl

theorem submitMarket_status :
    (e.submitMarket id symbol side q book now).1.status =
      if (swept F side q book).1 = q then .filled
      else if (swept F side q book).1 > 0 then .partiallyFilled else .rejected := rfl

variable {side q book}

theorem oppositeLevels_nonneg (hb : book.Positive) :
    ∀ lvl ∈ oppositeLevels book side, 0 ≤ lvl.quantity := fun lvl hl => (hb _ lvl hl).le

theorem swept_filled (hb : book.Positive) (hq : 0 ≤ q) :
    (swept F side q book).1 = min q (sharesOf ((oppositeLevels book side).take 64)) := by
  unfold swept
  rw [oppositeDepth_eq, sweep_filled, zero_add, sum_sweepTakes (oppositeLevels_nonneg hb) hq]

theorem sharesOf_take_lt (hb : book.Positive) (h : 64 < (oppositeLevels book side).length) :
    sharesOf ((oppositeLevels book side).take 64) < sharesOf (oppositeLevels book side) := by
  have hsplit : sharesOf (oppositeLevels book side) =
      sharesOf ((oppositeLevels book side).take 64) +
        sharesOf ((oppositeLevels book side).drop 64) := by
    unfold sharesOf
    rw [← List.sum_append, ← List.map_append, List.take_append_drop]
  have hbeyond : 0 < sharesOf ((oppositeLevels book side).drop 64) :=
    sharesOf_pos (fun lvl hl => hb _ lvl (List.mem_of_mem_drop hl)) (by simpa using h)
  lia

theorem sharesOf_pos_iff (hb : book.Positive) :
    0 < sharesOf (oppositeLevels book side) ↔ oppositeLevels book side ≠ [] := by
  constructor
  · rintro h hnil
    rw [hnil] at h
    exact absurd h (lt_irrefl _)
  · exact sharesOf_pos (hb _)

variable (side q)

/-- **When a market order gets all there is.** It fills its quantity or everything the opposite side
holds, with the status that says which, exactly if that side has at most 64 levels or its best 64
hold the quantity. -/
theorem market_short_iff (sym : Symbol) (evs : List MarketEvent)
    (hevs : ∀ ev ∈ evs, 0 ≤ ev.quantity) (hq : 0 < q) :
    let book := OrderBook.after sym evs
    let levels := oppositeLevels book side
    let report := (e.submitMarket id symbol side q book now).1
    (report.fillQuantity = min q (sharesOf levels) ∧
        report.status =
          if q ≤ sharesOf levels then .filled
          else if levels ≠ [] then .partiallyFilled else .rejected) ↔
      levels.length ≤ 64 ∨ q ≤ sharesOf (levels.take 64) := by
  intro book levels report
  have hb : book.Positive := OrderBook.after_positive sym fun ev hev _ => hevs ev hev
  have hfilled : report.fillQuantity = min q (sharesOf (levels.take 64)) :=
    (submitMarket_fillQuantity e id symbol side q book now).trans (swept_filled hb hq.le)
  have hstatus : report.status =
      if report.fillQuantity = q then .filled
      else if report.fillQuantity > 0 then .partiallyFilled else .rejected :=
    submitMarket_status e id symbol side q book now
  constructor
  · rintro ⟨h, -⟩
    by_contra hnot
    rw [not_or, not_le, not_le] at hnot
    have hlt := sharesOf_take_lt hb hnot.1
    rw [hfilled] at h
    have hq' := hnot.2
    lia
  · intro h
    have hall : min q (sharesOf (levels.take 64)) = min q (sharesOf levels) := by
      rcases h with h | h
      · rw [List.take_of_length_le h]
      · by_cases hlen : levels.length ≤ 64
        · rw [List.take_of_length_le hlen]
        · have hlt := sharesOf_take_lt hb (not_le.mp hlen)
          rw [min_eq_left h, min_eq_left (h.trans hlt.le)]
    rw [hall] at hfilled
    refine ⟨hfilled, ?_⟩
    rw [hstatus, hfilled]
    have hpos : 0 < sharesOf levels ↔ levels ≠ [] := sharesOf_pos_iff hb
    by_cases hle : q ≤ sharesOf levels
    · rw [min_eq_left hle, if_pos rfl, if_pos hle]
    · have hlt := not_le.mp hle
      rw [min_eq_right hlt.le, if_neg hlt.ne, if_neg hle]
      exact if_congr hpos rfl rfl

end Short

/-- 65 asks of one share each. -/
def deepAsks : List MarketEvent :=
  (List.range 65).map fun (n : ℕ) =>
    .makeQuote (n : ℤ) n (.ofView [65]) .sell (.fromTicks (1000000 + n)) 1

/-- **The last level** is not reached. -/
theorem market_short :
    ¬ ∀ (e : PaperExecutionEngine ℚ) (id : OrderId) (symbol : Symbol) (side : Side) (q : Quantity)
      (now : Timestamp) (sym : Symbol) (evs : List MarketEvent),
      (∀ ev ∈ evs, 0 ≤ ev.quantity) → 0 < q →
      let book := OrderBook.after sym evs
      let levels := oppositeLevels book side
      let report := (e.submitMarket id symbol side q book now).1
      report.fillQuantity = min q (sharesOf levels) ∧
        report.status =
          if q ≤ sharesOf levels then .filled
          else if levels ≠ [] then .partiallyFilled else .rejected := by
  intro h
  have hfill := (h {} 1 (.ofView [65]) .buy 65 0 (.ofView [65]) deepAsks (by decide +kernel)
    (by decide)).1
  have hne : (({} : PaperExecutionEngine ℚ).submitMarket 1 (.ofView [65]) .buy 65
        (OrderBook.after (.ofView [65]) deepAsks) 0).1.fillQuantity ≠
      min 65 (sharesOf (oppositeLevels (OrderBook.after (.ofView [65]) deepAsks) .buy)) := by
    decide +kernel
  exact hne hfill

/-- Two asks. -/
def twoAsks : List MarketEvent :=
  [.makeQuote 1 1 (.ofView [65]) .sell (.fromTicks 1000100) 40,
    .makeQuote 1 2 (.ofView [65]) .sell (.fromTicks 1000000) 60]

theorem market_short_twoAsks :
    (({} : PaperExecutionEngine ℚ).submitMarket 1 (.ofView [65]) .buy 150
      (OrderBook.after (.ofView [65]) twoAsks) 0).1.fillQuantity = 100 := by
  have h := (market_short_iff ({} : PaperExecutionEngine ℚ) 1 (.ofView [65]) .buy 150 0 (.ofView [65])
    twoAsks (by decide) (by decide)).mpr (.inl (by decide +kernel))
  have hshares : min 150 (sharesOf (oppositeLevels (OrderBook.after (.ofView [65]) twoAsks) .buy)) =
      100 := by
    decide +kernel
  exact h.1.trans hshares

/-! ## What a market order pays -/

/-- The prices at which something is taken. -/
def pricesTaken (levels : List BookLevel) (amounts : List Quantity) : List Price :=
  (levels.zip amounts).filterMap fun x => if 0 < x.2 then some x.1.price else none

/-- What the shares cost, in dollars. -/
def dollars (levels : List BookLevel) (amounts : List Quantity) : ℚ :=
  cost (fun lvl => (lvl.price.toDouble : ℚ)) levels amounts

/-- The dollars at which `filled` shares can be had from some levels. -/
def offers (levels : List BookLevel) (filled : Quantity) : Set ℚ :=
  {c | ∃ amounts, Within BookLevel.quantity levels amounts ∧ amounts.sum = filled ∧
    dollars levels amounts = c}

section Best

variable {levels : List BookLevel} {ns : List Quantity}

theorem mem_pricesTaken {p : Price} :
    p ∈ pricesTaken levels ns ↔ ∃ lvl n, (lvl, n) ∈ levels.zip ns ∧ 0 < n ∧ lvl.price = p := by
  unfold pricesTaken
  rw [List.mem_filterMap]
  constructor
  · rintro ⟨⟨lvl, n⟩, hm, h⟩
    dsimp only at h
    split_ifs at h with hpos
    exact ⟨lvl, n, hm, hpos, Option.some.inj h⟩
  · rintro ⟨lvl, n, hm, hpos, rfl⟩
    exact ⟨(lvl, n), hm, if_pos hpos⟩

theorem pricesTaken_ne_nil (hn : Within BookLevel.quantity levels ns) (hpos : 0 < ns.sum) :
    pricesTaken levels ns ≠ [] := by
  intro hnil
  have hnone : ∀ lvl n, (lvl, n) ∈ levels.zip ns → ¬ 0 < n := fun lvl n hm hn => by
    have hmem := mem_pricesTaken.mpr ⟨lvl, n, hm, hn, rfl⟩
    rw [hnil] at hmem
    exact List.not_mem_nil hmem
  -- with nothing taken, the cost is bounded by any prices
  obtain ⟨hlow, hhigh⟩ : (ns.sum : ℤ) * (1 : ℚ) ≤ dollars levels ns ∧
      dollars levels ns ≤ (ns.sum : ℤ) * (0 : ℚ) :=
    cost_between hn (fun lvl n hm h => absurd h (hnone lvl n hm))
      fun lvl n hm h => absurd h (hnone lvl n hm)
  have hsum : (0 : ℚ) < (ns.sum : ℤ) := by exact_mod_cast hpos
  linarith

theorem exists_extremes {l : List Price} (h : l ≠ []) :
    ∃ low high, IsLeast {p | p ∈ l} low ∧ IsGreatest {p | p ∈ l} high := by
  have hne : l.toFinset.Nonempty := (List.toFinset_nonempty_iff l).mpr h
  have hlow := l.toFinset.isLeast_min' hne
  have hhigh := l.toFinset.isGreatest_max' hne
  rw [List.coe_toFinset] at hlow hhigh
  exact ⟨_, _, hlow, hhigh⟩

/-- **The average price**, rounded to ticks, is between the prices taken. -/
theorem average_between {low high : Price} (hn : Within BookLevel.quantity levels ns)
    (hlow : IsLeast {p | p ∈ pricesTaken levels ns} low)
    (hhigh : IsGreatest {p | p ∈ pricesTaken levels ns} high) (hpos : 0 < ns.sum) :
    low ≤ Price.fromDouble (dollars levels ns / (ns.sum : ℤ)) ∧
      Price.fromDouble (dollars levels ns / (ns.sum : ℤ)) ≤ high := by
  have hsum : (0 : ℚ) < (ns.sum : ℤ) := by exact_mod_cast hpos
  obtain ⟨h₁, h₂⟩ : (ns.sum : ℤ) * (low.toDouble : ℚ) ≤ dollars levels ns ∧
      dollars levels ns ≤ (ns.sum : ℤ) * (high.toDouble : ℚ) :=
    cost_between hn
      (fun lvl n hm h => Price.toDouble_mono (hlow.2 (mem_pricesTaken.mpr ⟨lvl, n, hm, h, rfl⟩)))
      fun lvl n hm h => Price.toDouble_mono (hhigh.2 (mem_pricesTaken.mpr ⟨lvl, n, hm, h, rfl⟩))
  constructor
  · calc low = Price.fromDouble (low.toDouble : ℚ) := (Price.fromDouble_toDouble low).symm
      _ ≤ _ := Price.fromDouble_mono ((le_div_iff₀' hsum).mpr h₁)
  · calc Price.fromDouble (dollars levels ns / (ns.sum : ℤ))
        ≤ Price.fromDouble (high.toDouble : ℚ) := Price.fromDouble_mono ((div_le_iff₀' hsum).mpr h₂)
      _ = high := Price.fromDouble_toDouble high

end Best

section Rational

variable {book : OrderBook} {side : Side} {q : Quantity}

theorem swept_eq (book : OrderBook) (side : Side) (q : Quantity) :
    swept ℚ side q book = ((sweepTakes 64 (oppositeLevels book side) q).sum,
      dollars (oppositeLevels book side) (sweepTakes 64 (oppositeLevels book side) q)) := by
  unfold swept dollars
  rw [oppositeDepth_eq]
  refine Prod.ext ?_ ?_
  · rw [sweep_filled, zero_add]
  · rw [sweep_notional, ofInt_rat, Int.cast_zero, zero_add]

theorem oppositeLevels_sorted (hb : book.Ordered) :
    (side = .buy → (oppositeLevels book side).Pairwise fun x y =>
        (x.price.toDouble : ℚ) ≤ y.price.toDouble) ∧
      (side ≠ .buy → (oppositeLevels book side).Pairwise fun x y =>
        -(x.price.toDouble : ℚ) ≤ -y.price.toDouble) := by
  constructor
  · rintro rfl
    exact (hb .ask).imp fun h => Price.toDouble_mono h.le
  · intro h
    have hside : side.book.other = .bid := by
      cases side with
      | buy => exact absurd rfl h
      | sell => rfl
      | unnamed raw hraw => rfl
    unfold oppositeLevels
    rw [hside]
    exact (hb .bid).imp fun h => neg_le_neg (Price.toDouble_mono h.le)

/-- **The best price available.** What a market order pays for the shares it fills is the least that
they cost on the other side of the book, or for a sale the most that they bring, over every choice of
amounts from its levels; and the reported price is between the lowest and the highest price taken. -/
theorem sweep_best (e : PaperExecutionEngine ℚ) (id : OrderId) (symbol : Symbol) (side : Side)
    (q : Quantity) (now : Timestamp) (sym : Symbol) (evs : List MarketEvent)
    (hevs : ∀ ev ∈ evs, 0 ≤ ev.quantity) :
    let book := OrderBook.after sym evs
    let levels := oppositeLevels book side
    let takes := sweepTakes 64 levels q
    let filled := (swept ℚ side q book).1
    let notional := (swept ℚ side q book).2
    let report := (e.submitMarket id symbol side q book now).1
    (side = .buy → IsLeast (offers levels filled) notional) ∧
    (side ≠ .buy → IsGreatest (offers levels filled) notional) ∧
    (takes.sum = filled ∧ dollars levels takes = notional) ∧
    report.fillQuantity = filled ∧
    (0 < filled → ∃ low high, IsLeast {p | p ∈ pricesTaken levels takes} low ∧
      IsGreatest {p | p ∈ pricesTaken levels takes} high ∧
      low ≤ report.fillPrice ∧ report.fillPrice ≤ high) := by
  intro book levels takes filled notional report
  have hb : book.Positive := OrderBook.after_positive sym fun ev hev _ => hevs ev hev
  obtain ⟨hbuy, hsell⟩ := oppositeLevels_sorted (OrderBook.after_spec sym evs).1
  have hwithin : Within BookLevel.quantity levels takes :=
    within_sweepTakes (oppositeLevels_nonneg hb)
  have hfirst : CheapestFirst BookLevel.quantity levels takes := cheapestFirst_sweepTakes
  have hfilled : takes.sum = filled := (congrArg Prod.fst (swept_eq book side q)).symm
  have hnotional : dollars levels takes = notional := (congrArg Prod.snd (swept_eq book side q)).symm
  have hoffer : notional ∈ offers levels filled := ⟨takes, hwithin, hfilled, hnotional⟩
  refine ⟨fun h => ⟨hoffer, ?_⟩, fun h => ⟨hoffer, ?_⟩, ⟨hfilled, hnotional⟩, rfl, fun hpos => ?_⟩
  · rintro c ⟨amounts, hamounts, hsum, rfl⟩
    rw [← hnotional]
    exact cost_minimal (hbuy h) hwithin hfirst hamounts (hsum.trans hfilled.symm)
  · rintro c ⟨amounts, hamounts, hsum, rfl⟩
    have hle := cost_minimal (hsell h) hwithin hfirst hamounts (hsum.trans hfilled.symm)
    rw [cost_neg, cost_neg, neg_le_neg_iff] at hle
    rw [← hnotional]
    exact hle
  · rw [← hfilled] at hpos
    obtain ⟨low, high, hlow, hhigh⟩ := exists_extremes (pricesTaken_ne_nil hwithin hpos)
    have hprice : report.fillPrice = Price.fromDouble (dollars levels takes / (takes.sum : ℤ)) := by
      rw [hfilled] at hpos
      rw [hnotional, hfilled]
      exact (submitMarket_fillPrice e id symbol side q book now).trans (if_pos hpos)
    obtain ⟨h₁, h₂⟩ := average_between hwithin hlow hhigh hpos
    exact ⟨low, high, hlow, hhigh, hprice ▸ h₁, hprice ▸ h₂⟩

theorem sweep_best_twoAsks :
    IsLeast (offers (oppositeLevels (OrderBook.after (.ofView [65]) twoAsks) .buy) 70)
      (60 * 100 + 10 * (10001 / 100)) := by
  have h := (sweep_best {} 1 (.ofView [65]) .buy 70 0 (.ofView [65]) twoAsks (by decide)).1 rfl
  have hswept : swept ℚ .buy 70 (OrderBook.after (.ofView [65]) twoAsks) =
      (70, 60 * 100 + 10 * (10001 / 100)) := by
    decide +kernel
  rw [hswept] at h
  exact h

end Rational

end PaperExecutionEngine

end Lob
