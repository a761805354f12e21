import LobMarketMaker.Portfolio.TotalPnl

/-!
# Partial fills

The execution engine cuts an order into fills of random size. At one price the cut does not matter:
pieces that reduce, close, flip and extend the position one after the other leave the state that one
fill of all their shares leaves.

* `Fill.part`: a piece of a fill;
* `SameCost`: the same shares, average and realized P&L, which is all that the cut could change;
* `onFill_part`: two pieces are one fill;
* **`partial_fills_neutral`**: so are any number of pieces, with any fills before and after them.
-/

set_option autoImplicit false

namespace Lob

open Foundation

namespace Fill

variable {f : Fill} {position a b : ℤ}

/-- A piece of a fill. -/
def part (f : Fill) (q : Quantity) : Fill := { f with quantity := q }

@[simp] theorem part_price (f : Fill) (q : Quantity) : (f.part q).price = f.price := rfl

theorem shares_part_add (f : Fill) (a b : Quantity) :
    (f.part (a + b)).shares = (f.part a).shares + (f.part b).shares := by
  unfold part shares
  dsimp only
  split_ifs <;> lia

theorem shares_part_sign (f : Fill) (ha : 0 < a) (hb : 0 < b) :
    0 < (f.part a).shares ∧ 0 < (f.part b).shares ∨
      (f.part a).shares < 0 ∧ (f.part b).shares < 0 := by
  unfold part shares
  dsimp only
  split_ifs
  · exact .inl ⟨ha, hb⟩
  · exact .inr ⟨by lia, by lia⟩

theorem extends_part (ha : 0 < a) (hb : 0 < b) (h : (f.part a).Extends position) :
    (f.part b).Extends (position + (f.part a).shares) ∧ (f.part (a + b)).Extends position := by
  have hsign := shares_part_sign f ha hb
  have hadd := shares_part_add f a b
  unfold Extends at h ⊢
  lia

theorem opposes_part (ha : 0 < a) (hb : 0 < b) (h : (f.part a).Opposes position)
    (hlt : |(f.part a).shares| < |position|) :
    (f.part b).Opposes (position + (f.part a).shares) ∧ (f.part (a + b)).Opposes position ∧
      (|position + (f.part a).shares| ≤ |(f.part b).shares| ↔
        |position| ≤ |(f.part (a + b)).shares|) := by
  have hsign := shares_part_sign f ha hb
  have hadd := shares_part_add f a b
  unfold Opposes at h ⊢
  rw [hadd]
  grind

theorem extends_part_of_le (ha : 0 < a) (hb : 0 < b) (h : (f.part a).Opposes position)
    (hle : |position| ≤ |(f.part a).shares|) :
    (f.part b).Extends (position + (f.part a).shares) ∧ (f.part (a + b)).Opposes position ∧
      |position| ≤ |(f.part (a + b)).shares| ∧ position + (f.part (a + b)).shares ≠ 0 := by
  have hsign := shares_part_sign f ha hb
  have hadd := shares_part_add f a b
  unfold Opposes at h ⊢
  unfold Extends
  rw [hadd]
  grind

end Fill

namespace Portfolio

variable {p q : Portfolio ℚ} {f : Fill} {a b : ℤ}

/-- The states agree in the shares, the average and the realized P&L. -/
structure SameCost (s s' : PositionState ℚ) : Prop where
  position : s'.position = s.position
  avgEntryPrice : s'.avgEntryPrice = s.avgEntryPrice
  realizedPnl : s'.realizedPnl = s.realizedPnl

theorem SameCost.eq {s s' : PositionState ℚ} (h : SameCost s s')
    (hvolume : s'.totalVolumeTraded = s.totalVolumeTraded) (hturnover : s'.turnover = s.turnover)
    (hunrealized : s'.unrealizedPnl = s.unrealizedPnl) (htotal : s'.totalPnl = s.totalPnl) :
    s' = s := by
  obtain ⟨hposition, havg, hrealized⟩ := h
  cases s
  cases s'
  congr

theorem extends_part_cost (ha : 0 < a) (hb : 0 < b) (h : (f.part a).Extends p.state.position) :
    SameCost (p.onFill f.side f.price (a + b)).state
      ((p.onFill f.side f.price a).onFill f.side f.price b).state := by
  obtain ⟨h', h''⟩ := Fill.extends_part ha hb h
  have hne : ((p.state.position + (f.part a).shares : ℤ) : ℚ) ≠ 0 :=
    Int.cast_ne_zero.mpr (Fill.position_ne_zero_of_extends ha h)
  obtain ⟨hpos₁, havg₁, hreal₁⟩ := onFill_extends ha h
  rw [← hpos₁] at h'
  obtain ⟨hpos₂, havg₂, hreal₂⟩ := onFill_extends hb h'
  obtain ⟨hpos, havg, hreal⟩ := onFill_extends (f := f.part (a + b)) (add_pos ha hb) h''
  rw [Fill.shares_part_add] at hpos havg
  refine ⟨?_, ?_, ?_⟩
  · exact hpos₂.trans ((congrArg (· + (f.part b).shares) hpos₁).trans
      ((add_assoc _ _ _).trans hpos.symm))
  · refine (havg₂.trans ?_).trans havg.symm
    rw [hpos₁, havg₁]
    rw [Int.cast_add] at hne ⊢
    rw [mul_div_cancel₀ _ hne, Int.cast_add]
    simp only [Fill.part_price]
    rw [add_mul, ← add_assoc, ← add_assoc]
  · exact (hreal₂.trans hreal₁).trans hreal.symm

theorem opposes_part_cost (ha : 0 < a) (hb : 0 < b) (h : (f.part a).Opposes p.state.position)
    (hlt : |(f.part a).shares| < |p.state.position|) :
    SameCost (p.onFill f.side f.price (a + b)).state
      ((p.onFill f.side f.price a).onFill f.side f.price b).state := by
  obtain ⟨h', h'', hiff⟩ := Fill.opposes_part ha hb h hlt
  obtain ⟨hpos₁, havg₁, hreal₁⟩ := onFill_opposes h
  have hne : p.state.position + (f.part a).shares ≠ 0 := by
    intro h0
    rw [eq_neg_of_add_eq_zero_left h0, abs_neg] at hlt
    exact lt_irrefl _ hlt
  rw [if_neg hne, if_neg (not_le.mpr hlt)] at havg₁
  rw [Fill.closed, if_neg (not_le.mpr hlt)] at hreal₁
  rw [← hpos₁] at h'
  obtain ⟨hpos₂, havg₂, hreal₂⟩ := onFill_opposes h'
  obtain ⟨hpos, havg, hreal⟩ := onFill_opposes h''
  have hsum : p.state.position + (f.part (a + b)).shares =
      p.state.position + (f.part a).shares + (f.part b).shares := by
    rw [Fill.shares_part_add, add_assoc]
  rw [hpos₁] at hpos₂
  refine ⟨(hpos₂.trans hsum.symm).trans hpos.symm, (havg₂.trans ?_).trans havg.symm,
    (hreal₂.trans ?_).trans hreal.symm⟩
  · rw [hpos₁, havg₁, ← hsum]
    exact if_congr Iff.rfl rfl (if_congr hiff rfl rfl)
  · rw [hpos₁, havg₁, hreal₁, Fill.closed, Fill.closed, if_congr hiff rfl rfl]
    rw [Fill.shares_part_add]
    simp only [Fill.part_price]
    split_ifs <;> push_cast <;> ring

theorem flips_part_cost (ha : 0 < a) (hb : 0 < b) (h : (f.part a).Opposes p.state.position)
    (hle : |p.state.position| ≤ |(f.part a).shares|) :
    SameCost (p.onFill f.side f.price (a + b)).state
      ((p.onFill f.side f.price a).onFill f.side f.price b).state := by
  obtain ⟨h', h'', hle', hne'⟩ := Fill.extends_part_of_le ha hb h hle
  obtain ⟨hpos₁, havg₁, hreal₁⟩ := onFill_opposes h
  rw [if_pos hle] at havg₁
  rw [Fill.closed, if_pos hle] at hreal₁
  have hne : ((p.state.position + (f.part a).shares : ℤ) : ℚ) + (f.part b).shares ≠ 0 := by
    have := Fill.position_ne_zero_of_extends hb h'
    exact_mod_cast this
  rw [← hpos₁] at h'
  obtain ⟨hpos₂, havg₂, hreal₂⟩ := onFill_extends hb h'
  obtain ⟨hpos, havg, hreal⟩ := onFill_opposes h''
  rw [if_neg hne', if_pos hle'] at havg
  rw [Fill.closed, if_pos hle'] at hreal
  rw [Fill.shares_part_add] at hpos
  refine ⟨?_, (havg₂.trans ?_).trans havg.symm, (hreal₂.trans hreal₁).trans hreal.symm⟩
  · exact hpos₂.trans ((congrArg (· + (f.part b).shares) hpos₁).trans
      ((add_assoc _ _ _).trans hpos.symm))
  · rw [hpos₁, havg₁, div_eq_iff hne]
    simp only [Fill.part_price]
    split_ifs with h0
    · rw [h0, Int.cast_zero]
      ring
    · ring

/-- **Two pieces cost what one fill costs.** -/
theorem onFill_part_cost (p : Portfolio ℚ) (f : Fill) (ha : 0 < a) (hb : 0 < b) :
    SameCost (p.onFill f.side f.price (a + b)).state
      ((p.onFill f.side f.price a).onFill f.side f.price b).state := by
  rcases Fill.extends_or_opposes (f := f.part a) ha p.state.position with h | h
  · exact extends_part_cost ha hb h
  · rcases lt_or_ge |(f.part a).shares| |p.state.position| with hlt | hle
    · exact opposes_part_cost ha hb h hlt
    · exact flips_part_cost ha hb h hle

/-- **Two pieces are one fill.** -/
theorem onFill_part (p : Portfolio ℚ) (f : Fill) (ha : 0 < a) (hb : 0 < b) :
    ((p.onFill f.side f.price a).onFill f.side f.price b).state =
      (p.onFill f.side f.price (a + b)).state := by
  refine (onFill_part_cost p f ha hb).eq ?_ ?_ ?_ ?_
  · rw [onFill_volume, onFill_volume, onFill_volume, wrapI64_add_left, add_assoc]
  · rw [onFill_turnover, onFill_turnover, onFill_turnover, ofInt_rat, ofInt_rat, ofInt_rat,
      Int.cast_add, add_mul, add_assoc]
  · rw [onFill_unrealized, onFill_unrealized, onFill_unrealized]
  · rw [onFill_total, onFill_total, onFill_total]

theorem onFills_state (fills : List Fill) (h : p.state = q.state) :
    (p.onFills fills).state = (q.onFills fills).state := by
  refine run_lockstep _ _ (R := fun p q : Portfolio ℚ => p.state = q.state) ?_ h fills
  intro p q f h
  unfold onFill
  rw [h]

theorem onFills_parts (p : Portfolio ℚ) (f : Fill) (q : Quantity) (qs : List Quantity)
    (hq : 0 < q) (hqs : ∀ x ∈ qs, 0 < x) :
    (p.onFills ((q :: qs).map f.part)).state =
      (p.onFill f.side f.price (q :: qs).sum).state := by
  induction qs generalizing q with
  | nil =>
    rw [List.sum_singleton]
    rfl
  | cons q' qs ih =>
    obtain ⟨hq', hqs⟩ := List.forall_mem_cons.mp hqs
    -- the first two pieces are one piece
    have htwo := onFills_state (qs.map f.part) (onFill_part p f hq hq')
    calc (p.onFills ((q :: q' :: qs).map f.part)).state
        = (p.onFills (((q + q') :: qs).map f.part)).state := htwo
      _ = (p.onFill f.side f.price ((q + q') :: qs).sum).state := ih (q + q') (add_pos hq hq') hqs
      _ = (p.onFill f.side f.price (q :: q' :: qs).sum).state := by
        rw [List.sum_cons, List.sum_cons, List.sum_cons, add_assoc]

/-- **Partial fills are neutral.** However a fill of `q` shares at one price is cut into pieces, and
whatever is filled before and after it, the position, its average price, the realized P&L, the
volume and the turnover are those of the whole fill. -/
theorem partial_fills_neutral (p : Portfolio ℚ) (before after : List Fill) (f : Fill)
    (pieces : List Quantity) (hne : pieces ≠ []) (hpos : ∀ q ∈ pieces, 0 < q)
    (hsum : pieces.sum = f.quantity) :
    (p.onFills (before ++ pieces.map f.part ++ after)).state =
      (p.onFills (before ++ f :: after)).state := by
  obtain ⟨q, qs, rfl⟩ := List.exists_cons_of_ne_nil hne
  obtain ⟨hq, hqs⟩ := List.forall_mem_cons.mp hpos
  have hparts := onFills_parts (p.onFills before) f q qs hq hqs
  rw [hsum] at hparts
  unfold onFills at hparts ⊢
  rw [run_append, run_append, run_append]
  exact onFills_state after hparts

theorem partial_fills_neutral_flip :
    (Portfolio.onFills (F := ℚ) {} ([⟨.buy, .fromTicks 1000000, 10⟩] ++
        [4, 6, 5].map (Fill.part ⟨.sell, .fromTicks 1010000, 15⟩) ++
        [⟨.buy, .fromTicks 990000, 5⟩])).state =
      (Portfolio.onFills (F := ℚ) {} ([⟨.buy, .fromTicks 1000000, 10⟩] ++
        ⟨.sell, .fromTicks 1010000, 15⟩ :: [⟨.buy, .fromTicks 990000, 5⟩])).state :=
  partial_fills_neutral {} _ _ _ _ (by decide) (by decide) rfl

end Portfolio

end Lob
