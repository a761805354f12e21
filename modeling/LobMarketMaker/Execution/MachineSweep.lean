import LobMarketMaker.Common.MachinePrices
import LobMarketMaker.Execution.MarketSweep

/-!
# The sweep in the machine's doubles

The loop of `submit_market` adds up products of doubles, and the average that it reports is a
quotient. With 64 levels that is less than seventy roundings, and for ordinary prices too few to
move the report away from the exact average.

* `after_payable`: quotes at payable prices put up no levels at others;
* `sweep_tally`: the loop, a rounding for every level; `tally_average`: the average of its total;
* **`machine_sweep`**: the report.
-/

set_option autoImplicit false

namespace Lob

open Foundation Foundation.Binary64

/-- **A level is at the price of a quote.** -/
theorem OrderBook.after_payable (sym : Symbol) {evs : List MarketEvent}
    (h : ∀ ev ∈ evs, ev.type = .quote → ev.price.Payable) (s : BookSide) :
    ∀ lvl ∈ (OrderBook.after sym evs).levels s, lvl.price.Payable := by
  intro lvl hlvl
  obtain ⟨pre, ev, post, rfl, ⟨-, -, hprice⟩, hquote, -⟩ :=
    ((after_spec sym evs).2 s lvl).mp hlvl
  rw [← hprice]
  exact h ev (by simp) hquote

namespace PaperExecutionEngine

variable {d : Float.Model} {k : ℕ} {c : ℚ}

/-- **The loop** adds a rounding for every level. -/
theorem sweep_tally (n : ℕ) (levels : List BookLevel) (remaining filled : Quantity)
    (hlevels : ∀ lvl ∈ levels, lvl.price.Payable ∧ 0 < lvl.quantity) (hrem : remaining ≤ 2 ^ 53)
    (h : Tally k d c) (hk : 2 ≤ k) (hk' : k + n ≤ 2 ^ 50)
    (hc : 0 < remaining → c + remaining * 2 ^ 40 ≤ 2 ^ 100) :
    Tally (k + n) (sweep (levels.take n) remaining filled d).2
      (c + dollars levels (sweepTakes n levels remaining)) := by
  induction levels generalizing n remaining filled d c k with
  | nil =>
    rw [List.take_nil, dollars, cost_nil, add_zero]
    exact h.mono (Nat.le_add_right k n)
  | cons level levels ih =>
    cases n with
    | zero =>
      rw [List.take_zero, dollars, cost_eq_zero_of_all (sweepTakes_zero _ _), add_zero, add_zero]
      exact h
    | succ n =>
      rw [List.take_succ_cons, sweep]
      split_ifs with hstop
      · rw [dollars, cost_eq_zero_of_all (sweepTakes_of_nonpos hstop), add_zero]
        exact h.mono (Nat.le_add_right k (n + 1))
      · obtain ⟨hpay, hqty⟩ := hlevels level List.mem_cons_self
        have htake : 0 < min remaining level.quantity := lt_min (not_le.mp hstop) hqty
        have hle : min remaining level.quantity ≤ remaining := min_le_left _ _
        rw [sweepTakes, if_neg hstop, dollars, cost_cons]
        generalize min remaining level.quantity = take at htake hle ⊢
        obtain ⟨hlow, hhigh⟩ := hpay.bounds
        have htake' : (0 : ℚ) < take := by exact_mod_cast htake
        have hle' : (take : ℚ) ≤ remaining := by exact_mod_cast hle
        have hmul : (take : ℚ) * level.price.toDouble ≤ take * 2 ^ 40 :=
          mul_le_mul_of_nonneg_left (by linarith) htake'.le
        have hbound := hc (not_le.mp hstop)
        have hadd := Price.tally_add h hk (by omega) htake (hle.trans hrem) hpay (by linarith)
        have hrun := ih n (remaining - take) (filled + take)
          (fun lvl hl => hlevels lvl (List.mem_cons_of_mem _ hl)) (by lia) hadd (by omega)
          (by omega) fun _ => by
            push_cast
            linarith
        rw [add_assoc c, Nat.add_assoc, Nat.add_comm 1 n] at hrun
        exact hrun

section Report

variable {levels : List BookLevel} {ns : List Quantity} {low high : Price}

theorem average_bounds (hn : Within BookLevel.quantity levels ns)
    (hlow : IsLeast {p | p ∈ pricesTaken levels ns} low)
    (hhigh : IsGreatest {p | p ∈ pricesTaken levels ns} high) (hpos : 0 < ns.sum) :
    (low.ticks : ℚ) ≤ dollars levels ns / (ns.sum : ℤ) * 10000 ∧
      dollars levels ns / (ns.sum : ℤ) * 10000 ≤ high.ticks := by
  have hsum : (0 : ℚ) < (ns.sum : ℤ) := by exact_mod_cast hpos
  obtain ⟨h₁, h₂⟩ : (ns.sum : ℤ) * (low.toDouble : ℚ) ≤ dollars levels ns ∧
      dollars levels ns ≤ (ns.sum : ℤ) * (high.toDouble : ℚ) :=
    cost_between hn
      (fun lvl n hm h => Price.toDouble_mono (hlow.2 (mem_pricesTaken.mpr ⟨lvl, n, hm, h, rfl⟩)))
      fun lvl n hm h => Price.toDouble_mono (hhigh.2 (mem_pricesTaken.mpr ⟨lvl, n, hm, h, rfl⟩))
  have hlow' := (le_div_iff₀' hsum).mpr h₁
  have hhigh' := (div_le_iff₀' hsum).mpr h₂
  rw [Price.toDouble_rat] at hlow' hhigh'
  constructor <;> linarith

theorem payable_of_taken (hlevels : ∀ lvl ∈ levels, lvl.price.Payable)
    {p : Price} (hp : p ∈ pricesTaken levels ns) : p.Payable := by
  obtain ⟨lvl, n, hm, -, rfl⟩ := mem_pricesTaken.mp hp
  exact hlevels lvl (List.of_mem_zip hm).1

/-- **The average of a tally**, rounded to ticks. -/
theorem tally_average {c : ℚ} (h : Tally 66 d c) {filled : ℤ} (h0 : 0 < filled)
    (h53 : filled ≤ 2 ^ 53) (hlow : 1 ≤ c / filled * 10000)
    (hhigh : c / filled * 10000 ≤ 2 ^ 40) :
    |((Price.fromDouble (d / ofInt filled)).ticks : ℚ) - c / filled * 10000| ≤ 5 / 8 := by
  have hlow' : 1 / 10000 ≤ c / filled := by linarith
  have happrox : Approx d .positive 66 c := by
    cases h with
    | zero h =>
      rw [zero_div, zero_mul] at hlow
      exact absurd hlow (by norm_num)
    | pos h => exact h
  have hdiv := happrox.div (approx_ofInt_of_pos h0 h53)
    (Price.moderate_of_le hlow' (by linarith)) (by norm_num)
  obtain ⟨t, ht, herror⟩ := Price.fromDouble_approx hdiv (2 ^ 40) hlow'
    (by exact_mod_cast hhigh) (by norm_num)
  have hticks : (Price.fromDouble (d / ofInt filled)).ticks = t := congrArg Price.ticks ht
  rw [hticks]
  exact herror

end Report

theorem swept_fst (F : Type) [Double F] (book : OrderBook) (side : Side) (q : Quantity) :
    (swept F side q book).1 = (sweepTakes 64 (oppositeLevels book side) q).sum := by
  unfold swept
  rw [oppositeDepth_eq, sweep_filled, zero_add]

theorem sum_sweepTakes_le {levels : List BookLevel} (hlevels : ∀ lvl ∈ levels, 0 ≤ lvl.quantity)
    {n : ℕ} {q : Quantity} (h : 0 < (sweepTakes n levels q).sum) : (sweepTakes n levels q).sum ≤ q := by
  by_cases hq : 0 ≤ q
  · rw [sum_sweepTakes hlevels hq]
    exact min_le_left _ _
  · exact absurd h (List.sum_eq_zero (sweepTakes_of_nonpos (not_le.mp hq).le)).not_gt

/-- **A market order on the machine.** With quotes at one tick to `2 ^ 40` ticks and up to `2 ^ 53`
shares, the order fills what it fills in exact arithmetic, reports a price within five eighths of a
tick of the exact average, so between the lowest and the highest price taken, and at most one tick
from the price reported in exact arithmetic. -/
theorem machine_sweep (e : PaperExecutionEngine Float.Model) (e' : PaperExecutionEngine ℚ)
    (id : OrderId) (symbol : Symbol) (side : Side) (q : Quantity) (now : Timestamp) (sym : Symbol)
    (evs : List MarketEvent)
    (hevs : ∀ ev ∈ evs, ev.type = .quote → 0 ≤ ev.quantity ∧ ev.price.Payable)
    (hq : q ≤ 2 ^ 53) :
    let book := OrderBook.after sym evs
    let levels := oppositeLevels book side
    let takes := sweepTakes 64 levels q
    let report := (e.submitMarket id symbol side q book now).1
    let exact := (e'.submitMarket id symbol side q book now).1
    (report.fillQuantity = takes.sum ∧ exact.fillQuantity = takes.sum) ∧
    (0 < takes.sum →
      |(report.fillPrice.ticks : ℚ) - dollars levels takes / (takes.sum : ℤ) * 10000| ≤ 5 / 8 ∧
      (∃ low high, IsLeast {p | p ∈ pricesTaken levels takes} low ∧
        IsGreatest {p | p ∈ pricesTaken levels takes} high ∧
        low ≤ report.fillPrice ∧ report.fillPrice ≤ high) ∧
      |report.fillPrice.ticks - exact.fillPrice.ticks| ≤ 1) := by
  intro book levels takes report exact
  have hpos : ∀ lvl ∈ levels, 0 < lvl.quantity := fun lvl hl =>
    OrderBook.after_positive sym (fun ev hev ht => (hevs ev hev ht).1) _ lvl hl
  have hpay : ∀ lvl ∈ levels, lvl.price.Payable := fun lvl hl =>
    OrderBook.after_payable sym (fun ev hev ht => (hevs ev hev ht).2) _ lvl hl
  have hwithin : Within BookLevel.quantity levels takes :=
    within_sweepTakes fun lvl hl => (hpos lvl hl).le
  have hfilled := swept_fst Float.Model book side q
  have hfilled' := swept_fst ℚ book side q
  refine ⟨⟨hfilled, hfilled'⟩, fun h0 => ?_⟩
  have h53 : takes.sum ≤ 2 ^ 53 := (sum_sweepTakes_le (fun lvl hl => (hpos lvl hl).le) h0).trans hq
  -- the exact average
  obtain ⟨low, high, hlow, hhigh⟩ := exists_extremes (pricesTaken_ne_nil hwithin h0)
  obtain ⟨h₁, h₂⟩ := average_bounds hwithin hlow hhigh h0
  have hlow1 : (1 : ℚ) ≤ low.ticks := by exact_mod_cast (payable_of_taken hpay hlow.1).1
  have hhigh40 : (high.ticks : ℚ) ≤ 2 ^ 40 := by exact_mod_cast (payable_of_taken hpay hhigh.1).2
  -- the loop
  have htally : Tally 66 (swept Float.Model side q book).2 (dollars levels takes) := by
    have hq' : (q : ℚ) ≤ 2 ^ 53 := by exact_mod_cast hq
    have h := sweep_tally 64 levels q 0 (fun lvl hl => ⟨hpay lvl hl, hpos lvl hl⟩) hq
      (.zero (k := 2) (d := ofInt 0) rfl) (le_refl _) (by norm_num) fun _ => by linarith
    rw [zero_add] at h
    unfold swept
    rw [oppositeDepth_eq]
    exact h
  have herror := tally_average htally h0 h53 (hlow1.trans h₁) (h₂.trans hhigh40)
  have hreport : report.fillPrice =
      Price.fromDouble ((swept Float.Model side q book).2 / ofInt takes.sum) := by
    refine (submitMarket_fillPrice e id symbol side q book now).trans ?_
    rw [hfilled, if_pos h0]
  have hexact : exact.fillPrice = Price.fromDouble (dollars levels takes / (takes.sum : ℤ)) := by
    refine (submitMarket_fillPrice e' id symbol side q book now).trans ?_
    rw [swept_eq book side q, if_pos h0]
    rfl
  have herror' := abs_roundAway_sub_le (dollars levels takes / (takes.sum : ℤ) * 10000)
  rw [← Price.fromDouble_ticks, ← hexact] at herror'
  rw [← hreport] at herror
  obtain ⟨he₁, he₂⟩ := abs_le.mp herror
  obtain ⟨he₁', he₂'⟩ := abs_le.mp herror'
  refine ⟨herror, ⟨low, high, hlow, hhigh, ?_, ?_⟩, ?_⟩
  · have hlt : (low.ticks : ℚ) < report.fillPrice.ticks + 1 := by linarith
    exact Int.lt_add_one_iff.mp (by exact_mod_cast hlt)
  · have hlt : (report.fillPrice.ticks : ℚ) < high.ticks + 1 := by linarith
    exact Int.lt_add_one_iff.mp (by exact_mod_cast hlt)
  · have hlt : (report.fillPrice.ticks : ℚ) < exact.fillPrice.ticks + 2 := by linarith
    have hgt : (exact.fillPrice.ticks : ℚ) < report.fillPrice.ticks + 2 := by linarith
    have hlt' : report.fillPrice.ticks < exact.fillPrice.ticks + 2 := by exact_mod_cast hlt
    have hgt' : exact.fillPrice.ticks < report.fillPrice.ticks + 2 := by exact_mod_cast hgt
    rw [abs_le]
    omega

theorem machine_sweep_twoAsks :
    |(({} : PaperExecutionEngine Float.Model).submitMarket 1 (.ofView [65]) .buy 70
        (OrderBook.after (.ofView [65]) twoAsks) 0).1.fillPrice.ticks -
      (({} : PaperExecutionEngine ℚ).submitMarket 1 (.ofView [65]) .buy 70
        (OrderBook.after (.ofView [65]) twoAsks) 0).1.fillPrice.ticks| ≤ 1 :=
  ((machine_sweep {} {} 1 (.ofView [65]) .buy 70 0 (.ofView [65]) twoAsks (by decide)
    (by norm_num)).2 (by decide)).2.2

end PaperExecutionEngine

end Lob
