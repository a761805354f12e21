import LobMarketMaker.Foundation.Runs
import LobMarketMaker.Portfolio.Portfolio

/-!
# Realized profit is cash

Every fill moves cash and shares. With exact arithmetic the realized P&L is at all times the cash of
the fills plus the position at its average entry price, whichever path `onFill` takes.

* `onFill_extends`, `onFill_opposes`: what the two paths of a fill do to position, average and
  realized P&L;
* `PositionState.cash`: the cash a state accounts for; `onFill_cash`: a fill moves it by its own
  amount;
* **`cash_identity`**: so it is the cash of all fills.
-/

set_option autoImplicit false

namespace Lob

open Foundation

/-- One fill reported to the portfolio. -/
structure Fill where
  side : Side
  price : Price
  quantity : Quantity
  deriving DecidableEq

/-- The shares a fill adds to the position. -/
def Fill.shares (f : Fill) : ℤ := if f.side = .buy then f.quantity else -f.quantity

/-- The portfolio after a list of fills. -/
def Portfolio.onFills {F : Type} [Double F] (p : Portfolio F) (fills : List Fill) : Portfolio F :=
  run (fun p f => p.onFill f.side f.price f.quantity) p fills

/-- The shares that changed hands. -/
def quantityOf (fills : List Fill) : ℤ := (fills.map Fill.quantity).sum

/-- The dollars that changed hands. -/
def notionalOf (fills : List Fill) : ℚ :=
  (fills.map fun f => (f.quantity : ℚ) * f.price.toDouble).sum

/-- The fills on the buy side. -/
def buys (fills : List Fill) : List Fill := fills.filter (·.side = .buy)

/-- The other fills. -/
def sells (fills : List Fill) : List Fill := fills.filter (·.side ≠ .buy)

/-! ## One fill -/

namespace Fill

variable {f : Fill} {position : ℤ}

/-- The fill opens a position or adds to it. -/
def Extends (position : ℤ) (f : Fill) : Prop := position = 0 ∨ (0 < position ↔ 0 < f.shares)

/-- The fill is on the side opposite to the position. -/
def Opposes (position : ℤ) (f : Fill) : Prop :=
  0 < position ∧ f.shares < 0 ∨ position < 0 ∧ 0 < f.shares

instance : Decidable (f.Opposes position) := by
  unfold Opposes
  infer_instance

/-- The shares of the position that an opposite fill closes, with the sign of the position. -/
def closed (position : ℤ) (f : Fill) : ℤ := if |position| ≤ |f.shares| then position else -f.shares

theorem shares_ne_zero (hf : 0 < f.quantity) : f.shares ≠ 0 := by
  unfold shares
  split_ifs <;> lia

theorem extends_or_opposes (hf : 0 < f.quantity) (position : ℤ) :
    f.Extends position ∨ f.Opposes position := by
  have := shares_ne_zero hf
  unfold Extends Opposes
  lia

theorem position_ne_zero_of_extends (hf : 0 < f.quantity) (h : f.Extends position) :
    position + f.shares ≠ 0 := by
  have := shares_ne_zero hf
  unfold Extends at h
  lia

theorem closed_ne_zero (h : f.Opposes position) : f.closed position ≠ 0 := by
  unfold Opposes at h
  unfold closed
  split_ifs <;> lia

end Fill

namespace PositionState

variable {s : PositionState ℚ} {price : ℚ} {f : Fill}

/-- The cash a state accounts for: what was realized, less the cost of the position. -/
def cash (s : PositionState ℚ) : ℚ := s.realizedPnl - s.position * s.avgEntryPrice

theorem extend_position (x : ℤ) :
    (Portfolio.extend s (x : ℚ) price).position = s.position + x := by
  unfold Portfolio.extend
  dsimp only
  rw [ofInt_rat, ← Int.cast_add, toInt_intCast]

/-- **Extending** averages the cost of the new shares in. -/
theorem extend_avg {x : ℤ} (hx : s.position + x ≠ 0) :
    (Portfolio.extend s (x : ℚ) price).avgEntryPrice =
      (s.position * s.avgEntryPrice + x * price) / (s.position + x) := by
  have hne : ((s.position : ℚ) + x) ≠ 0 := by exact_mod_cast hx
  unfold Portfolio.extend
  simp [hne]

theorem reduce_position (x : ℤ) :
    (Portfolio.reduce s (x : ℚ) price).position = s.position + x := by
  unfold Portfolio.reduce
  dsimp only
  rw [ofInt_rat, ← Int.cast_add, toInt_intCast]

theorem closing_eq (h : f.Opposes s.position) :
    fmin (Double.abs (f.shares : ℚ)) (Double.abs (ofInt s.position : ℚ)) *
        ofInt (if s.position > 0 then 1 else -1) = (f.closed s.position : ℚ) := by
  have habs : ∀ n : ℤ, Double.abs (n : ℚ) = ((|n| : ℤ) : ℚ) := fun n => (Int.cast_abs).symm
  rw [ofInt_rat, ofInt_rat, habs, habs, fmin, Fill.closed]
  rcases h with ⟨hp, hx⟩ | ⟨hp, hx⟩
  · rw [if_pos hp, abs_of_pos hp, abs_of_neg hx, Int.cast_one, mul_one]
    split_ifs with h₁ h₂ h₂
    · rfl
    · exact absurd (Int.cast_lt.mp h₁).le h₂
    · exact Int.cast_inj.mpr (le_antisymm (not_lt.mp fun h => h₁ (Int.cast_lt.mpr h)) h₂)
    · rfl
  · have hsign : ((-1 : ℤ) : ℚ) = -1 := rfl
    rw [if_neg (not_lt.mpr hp.le), abs_of_neg hp, abs_of_pos hx, hsign, mul_neg_one]
    split_ifs with h₁ h₂ h₂
    · rw [Int.cast_neg, neg_neg]
    · exact absurd (Int.cast_lt.mp h₁).le h₂
    · have hle : f.shares ≤ -s.position := not_lt.mp fun h => h₁ (Int.cast_lt.mpr h)
      rw [← Int.cast_neg, Int.cast_inj]
      lia
    · exact (Int.cast_neg _).symm

/-- **Reducing** realizes the difference to the average on the shares closed. -/
theorem reduce_realized (h : f.Opposes s.position) :
    (Portfolio.reduce s (f.shares : ℚ) price).realizedPnl =
      s.realizedPnl + f.closed s.position * (price - s.avgEntryPrice) := by
  rw [← closing_eq h]
  unfold Portfolio.reduce
  ring

/-- In any arithmetic that moves the position exactly the shares left keep their average; those beyond
the position open a new one at the fill's price. -/
theorem reduce_avg_of_position {F : Type} [Double F] {s : PositionState F} {signedFill price : F}
    (hpos : (Portfolio.reduce s signedFill price).position = s.position + f.shares)
    (h : f.Opposes s.position) : (Portfolio.reduce s signedFill price).avgEntryPrice =
      if s.position + f.shares = 0 then ofInt 0
      else if |s.position| ≤ |f.shares| then price else s.avgEntryPrice := by
  have hflip : decide (s.position + f.shares > 0) ≠
        decide ((if s.position > 0 then (1 : ℤ) else -1) > 0) ∧ s.position + f.shares ≠ 0 ↔
      s.position + f.shares ≠ 0 ∧ |s.position| ≤ |f.shares| := by
    rcases h with ⟨hp, hx⟩ | ⟨hp, hx⟩
    · rw [if_pos hp, abs_of_pos hp, abs_of_neg hx]
      simp only [gt_iff_lt, Int.one_pos, decide_true, ne_eq, decide_eq_true_eq]
      lia
    · rw [if_neg (not_lt.mpr hp.le), abs_of_neg hp, abs_of_pos hx]
      simp
      lia
  unfold Portfolio.reduce at hpos ⊢
  dsimp only at hpos ⊢
  rw [hpos]
  by_cases h0 : s.position + f.shares = 0
  · rw [if_neg (fun hc => hc.2 h0), if_pos h0, if_pos h0]
  · by_cases hle : |s.position| ≤ |f.shares|
    · rw [if_pos (hflip.mpr ⟨h0, hle⟩), if_neg h0, if_pos hle]
    · rw [if_neg (fun hc => hle (hflip.mp hc).2), if_neg h0, if_neg h0, if_neg hle]

theorem reduce_avg (h : f.Opposes s.position) :
    (Portfolio.reduce s (f.shares : ℚ) price).avgEntryPrice =
      if s.position + f.shares = 0 then 0
      else if |s.position| ≤ |f.shares| then price else s.avgEntryPrice := by
  rw [reduce_avg_of_position (reduce_position f.shares) h, ofInt_rat, Int.cast_zero]

end PositionState

namespace Portfolio

variable {p : Portfolio ℚ} {f : Fill}

theorem signedFill_eq (f : Fill) : signedFill f.side f.quantity = (f.shares : ℚ) := by
  unfold signedFill Fill.shares
  split_ifs
  · rfl
  · exact (Int.cast_neg _).symm

theorem extends_iff : f.Extends p.state.position ↔ p.state.position = 0 ∨
    decide (p.state.position > 0) = decide ((ofInt 0 : ℚ) < signedFill f.side f.quantity) := by
  rw [signedFill_eq, decide_eq_decide, ofInt_rat, Int.cast_lt]
  exact Iff.rfl

/-- **A fill on the side of the position.** -/
theorem onFill_extends (hf : 0 < f.quantity) (h : f.Extends p.state.position) :
    let s' := (p.onFill f.side f.price f.quantity).state
    s'.position = p.state.position + f.shares ∧
      s'.avgEntryPrice = (p.state.position * p.state.avgEntryPrice + f.shares * f.price.toDouble) /
        (p.state.position + f.shares) ∧
      s'.realizedPnl = p.state.realizedPnl := by
  have hne := Fill.position_ne_zero_of_extends hf h
  unfold onFill
  dsimp only
  rw [if_pos (extends_iff.mp h), signedFill_eq]
  exact ⟨PositionState.extend_position f.shares, PositionState.extend_avg hne, rfl⟩

/-- **A fill on the side opposite to it.** -/
theorem onFill_opposes (h : f.Opposes p.state.position) :
    let s' := (p.onFill f.side f.price f.quantity).state
    s'.position = p.state.position + f.shares ∧
      s'.avgEntryPrice = (if p.state.position + f.shares = 0 then 0
        else if |p.state.position| ≤ |f.shares| then f.price.toDouble
        else p.state.avgEntryPrice) ∧
      s'.realizedPnl = p.state.realizedPnl +
        f.closed p.state.position * (f.price.toDouble - p.state.avgEntryPrice) := by
  have hnot : ¬ f.Extends p.state.position := by
    unfold Fill.Opposes at h
    unfold Fill.Extends
    lia
  unfold onFill
  dsimp only
  rw [if_neg (mt extends_iff.mpr hnot), signedFill_eq]
  exact ⟨PositionState.reduce_position f.shares, PositionState.reduce_avg h,
    PositionState.reduce_realized h⟩

/-- **Step lemma.** A fill moves shares and cash by its own amounts. -/
theorem onFill_cash (hf : 0 < f.quantity) :
    (p.onFill f.side f.price f.quantity).state.position = p.state.position + f.shares ∧
      (p.onFill f.side f.price f.quantity).state.cash =
        p.state.cash - f.shares * f.price.toDouble := by
  unfold PositionState.cash
  rcases Fill.extends_or_opposes hf p.state.position with h | h
  · obtain ⟨hposition, havg, hrealized⟩ := onFill_extends hf h
    have hne : ((p.state.position : ℚ) + f.shares) ≠ 0 := by
      exact_mod_cast Fill.position_ne_zero_of_extends hf h
    refine ⟨hposition, ?_⟩
    rw [hposition, havg, hrealized, Int.cast_add, mul_div_cancel₀ _ hne]
    ring
  · obtain ⟨hposition, havg, hrealized⟩ := onFill_opposes h
    refine ⟨hposition, ?_⟩
    rw [hposition, havg, hrealized, Int.cast_add, Fill.closed]
    by_cases h0 : p.state.position + f.shares = 0
    · have hshares : f.shares = -p.state.position := by lia
      rw [if_pos h0, hshares, abs_neg, if_pos (le_refl _), Int.cast_neg]
      ring
    · rw [if_neg h0]
      split_ifs with hle
      · ring
      · rw [Int.cast_neg]
        ring

/-! ## A list of fills -/

/-- **Run lemma.** The fills of a list add up. -/
theorem onFills_cash (fills : List Fill) (hpos : ∀ f ∈ fills, 0 < f.quantity) :
    (p.onFills fills).state.position = p.state.position + (fills.map Fill.shares).sum ∧
      (p.onFills fills).state.cash =
        p.state.cash - (fills.map fun f => (f.shares : ℚ) * f.price.toDouble).sum := by
  induction fills generalizing p with
  | nil => exact ⟨(add_zero _).symm, (sub_zero _).symm⟩
  | cons f fills ih =>
    obtain ⟨hposition, hcash⟩ := onFill_cash (p := p) (hpos f List.mem_cons_self)
    obtain ⟨ih₁, ih₂⟩ := ih (p := p.onFill f.side f.price f.quantity)
      fun g hg => hpos g (List.mem_cons_of_mem _ hg)
    rw [List.map_cons, List.sum_cons, List.map_cons, List.sum_cons]
    constructor
    · rw [← add_assoc, ← hposition]
      exact ih₁
    · rw [← sub_sub, ← hcash]
      exact ih₂

theorem sum_signed {R : Type} [AddCommGroup R] (g : Fill → R) (fills : List Fill) :
    (fills.map fun f => if f.side = .buy then g f else -g f).sum =
      ((buys fills).map g).sum - ((sells fills).map g).sum := by
  unfold buys sells
  induction fills with
  | nil => exact (sub_zero _).symm
  | cons f fills ih =>
    rw [List.map_cons, List.sum_cons, ih]
    by_cases hb : f.side = .buy
    · rw [if_pos hb, List.filter_cons_of_pos (by simpa using hb),
        List.filter_cons_of_neg (by simpa using hb), List.map_cons, List.sum_cons]
      abel
    · rw [if_neg hb, List.filter_cons_of_neg (by simpa using hb),
        List.filter_cons_of_pos (by simpa using hb), List.map_cons, List.sum_cons]
      abel

theorem sum_shares (fills : List Fill) :
    (fills.map Fill.shares).sum = quantityOf (buys fills) - quantityOf (sells fills) :=
  sum_signed Fill.quantity fills

theorem sum_notional (fills : List Fill) :
    (fills.map fun f => (f.shares : ℚ) * f.price.toDouble).sum =
      notionalOf (buys fills) - notionalOf (sells fills) := by
  have hsigned : (fun f : Fill => (f.shares : ℚ) * f.price.toDouble) = fun f =>
      if f.side = .buy then (f.quantity : ℚ) * f.price.toDouble
      else -((f.quantity : ℚ) * f.price.toDouble) := by
    funext f
    rw [Fill.shares]
    split
    · rfl
    · rw [Int.cast_neg, neg_mul]
  rw [hsigned]
  exact sum_signed _ fills

/-- **Cash identity.** The realized P&L is the net cash of the fills plus the position at its
average entry price; marked at `m`, the total is the net cash plus the position at `m`. -/
theorem cash_identity (fills : List Fill) (hpos : ∀ f ∈ fills, 0 < f.quantity) :
    let p : Portfolio ℚ := onFills {} fills
    let netCash := notionalOf (sells fills) - notionalOf (buys fills)
    p.state.realizedPnl = netCash + p.state.position * p.state.avgEntryPrice ∧
      p.state.position = quantityOf (buys fills) - quantityOf (sells fills) ∧
      ∀ m : ℚ, (p.markToMarket m).state.totalPnl = netCash + p.state.position * m := by
  intro p netCash
  obtain ⟨hposition, hcash⟩ := onFills_cash (p := {}) fills hpos
  rw [sum_shares] at hposition
  rw [sum_notional] at hcash
  have hrealized : p.state.realizedPnl = netCash + p.state.position * p.state.avgEntryPrice := by
    have h0 : ({} : Portfolio ℚ).state.cash = 0 := by
      show (0 : ℚ) - 0 * 0 = 0
      norm_num
    rw [h0, PositionState.cash] at hcash
    show p.state.realizedPnl = (notionalOf (sells fills) - notionalOf (buys fills)) + _
    linarith only [hcash]
  refine ⟨hrealized, hposition.trans (zero_add _), fun m => ?_⟩
  show p.state.realizedPnl + p.state.position * (m - p.state.avgEntryPrice) = _
  rw [hrealized]
  ring

/-- Opened, extended, reduced and flipped. -/
def roundTrip : List Fill :=
  [⟨.buy, .fromTicks 1000000, 10⟩, ⟨.buy, .fromTicks 1010000, 10⟩, ⟨.sell, .fromTicks 1020000, 5⟩,
    ⟨.sell, .fromTicks 990000, 25⟩]

theorem cash_identity_roundTrip :
    (onFills (F := ℚ) {} roundTrip).state.realizedPnl =
        notionalOf (sells roundTrip) - notionalOf (buys roundTrip) +
          (onFills (F := ℚ) {} roundTrip).state.position *
            (onFills (F := ℚ) {} roundTrip).state.avgEntryPrice ∧
      (onFills (F := ℚ) {} roundTrip).state.position = -10 := by
  obtain ⟨h, hp, -⟩ := cash_identity roundTrip (by decide)
  exact ⟨h, hp⟩

end Portfolio

end Lob
