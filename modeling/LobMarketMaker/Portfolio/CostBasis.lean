import LobMarketMaker.Portfolio.CashIdentity
import Mathlib.Analysis.Convex.Segment

/-!
# The average entry price is a cost basis

The position counts as opened by the first fill out of a flat one and by a fill that turns it to the
other side. The average is a weighted mean of the prices paid since then.

* `sinceOpened`: the fills since the current position was opened;
* `weighted_between`: a mean with weights of one sign lies between its two values;
* `Basis`, `Basis.onFill`: the average against the fills it stands for, and one more fill;
* **`avg_is_cost_basis`**.
-/

set_option autoImplicit false

namespace Lob

open Foundation

namespace Fill

/-- The fill takes the position to zero. -/
def Closes (position : ℤ) (f : Fill) : Prop := position ≠ 0 ∧ position + f.shares = 0

/-- The fill takes the position to the other side. -/
def Flips (position : ℤ) (f : Fill) : Prop :=
  0 < position ∧ position + f.shares < 0 ∨ position < 0 ∧ 0 < position + f.shares

/-- The position held after the fill was opened by it. -/
def Opens (position : ℤ) (f : Fill) : Prop := position = 0 ∨ f.Flips position

instance (position : ℤ) (f : Fill) : Decidable (f.Opens position) := by
  unfold Opens Flips
  infer_instance

theorem flips_iff {position : ℤ} {f : Fill} (h : f.Opposes position)
    (hclose : position + f.shares ≠ 0) : f.Flips position ↔ |position| ≤ |f.shares| := by
  unfold Flips
  rcases h with ⟨hp, hx⟩ | ⟨hp, hx⟩
  · rw [abs_of_pos hp, abs_of_neg hx]
    lia
  · rw [abs_of_neg hp, abs_of_pos hx]
    lia

end Fill

/-- The position and the fills since it was opened, with one more fill. -/
def openedStep (s : ℤ × List Fill) (f : Fill) : ℤ × List Fill :=
  (s.1 + f.shares, if f.Opens s.1 then [f] else s.2 ++ [f])

/-- The fills since the one that opened or flipped the current position, that one included. -/
def sinceOpened (fills : List Fill) : List Fill := (run openedStep (0, []) fills).2

theorem weighted_between {a b : ℚ} (h : 0 ≤ a ∧ 0 < b ∨ a ≤ 0 ∧ b < 0) (x y : ℚ) :
    min x y ≤ (a * x + b * y) / (a + b) ∧ (a * x + b * y) / (a + b) ≤ max x y := by
  have hne : a + b ≠ 0 := by
    rcases h with ⟨ha, hb⟩ | ⟨ha, hb⟩
    · exact (add_pos_of_nonneg_of_pos ha hb).ne'
    · exact (add_neg_of_nonpos_of_neg ha hb).ne
  have ha : 0 ≤ a / (a + b) := by
    rcases h with ⟨ha, hb⟩ | ⟨ha, hb⟩
    · exact div_nonneg ha (by linarith)
    · exact div_nonneg_of_nonpos ha (by linarith)
  have hb : 0 ≤ b / (a + b) := by
    rcases h with ⟨ha, hb⟩ | ⟨ha, hb⟩
    · exact div_nonneg hb.le (by linarith)
    · exact div_nonneg_of_nonpos hb.le (by linarith)
  have hsum : a / (a + b) + b / (a + b) = 1 := by rw [← add_div, div_self hne]
  have hmean : (a * x + b * y) / (a + b) = a / (a + b) * x + b / (a + b) * y := by
    rw [add_div, mul_div_right_comm, mul_div_right_comm]
  have hlow : min x y ≤ (a / (a + b)) • x + (b / (a + b)) • y := Convex.min_le_combo x y ha hb hsum
  have hhigh : (a / (a + b)) • x + (b / (a + b)) • y ≤ max x y := Convex.combo_le_max x y ha hb hsum
  rw [hmean]
  exact ⟨hlow, hhigh⟩

namespace Portfolio

variable {p : Portfolio ℚ} {f : Fill} {s : ℤ × List Fill}

/-- The average is zero for a flat position, and else within the prices since it was opened. -/
structure Basis (p : Portfolio ℚ) (s : ℤ × List Fill) : Prop where
  position : p.state.position = s.1
  flat : s.1 = 0 → p.state.avgEntryPrice = 0
  low : s.1 ≠ 0 → ∃ f ∈ s.2, f.price.toDouble ≤ p.state.avgEntryPrice
  high : s.1 ≠ 0 → ∃ f ∈ s.2, p.state.avgEntryPrice ≤ f.price.toDouble

theorem basis_new : Basis {} (0, []) :=
  ⟨rfl, fun _ => rfl, fun h => absurd rfl h, fun h => absurd rfl h⟩

theorem Basis.of_eq {p : Portfolio ℚ} {f : Fill} {position : ℤ} {since : List Fill}
    (hposition : p.state.position = position) (hne : position ≠ 0)
    (havg : p.state.avgEntryPrice = f.price.toDouble) (hmem : f ∈ since) :
    Basis p (position, since) :=
  ⟨hposition, fun h => absurd h hne, fun _ => ⟨f, hmem, havg.ge⟩, fun _ => ⟨f, hmem, havg.le⟩⟩

theorem mem_openedStep (s : ℤ × List Fill) (f : Fill) : f ∈ (openedStep s f).2 := by
  unfold openedStep
  dsimp only
  split_ifs
  · exact List.mem_singleton_self f
  · exact List.mem_append_right _ (List.mem_singleton_self f)

theorem mem_openedStep_of_mem (h : ¬ f.Opens s.1) {g : Fill} (hg : g ∈ s.2) :
    g ∈ (openedStep s f).2 := by
  unfold openedStep
  dsimp only
  rw [if_neg h]
  exact List.mem_append_left _ hg

/-- **A fill on the side of the position** averages its price in. -/
theorem Basis.extends (h : Basis p s) (hf : 0 < f.quantity) (hext : f.Extends s.1) :
    Basis (p.onFill f.side f.price f.quantity) (openedStep s f) := by
  have hne := Fill.position_ne_zero_of_extends hf hext
  have hshares := Fill.shares_ne_zero hf
  rw [← h.position] at hext
  obtain ⟨hposition, havg, -⟩ := onFill_extends hf hext
  rw [h.position] at hposition havg hext
  by_cases h0 : s.1 = 0
  · refine .of_eq hposition hne ?_ (mem_openedStep s f)
    have hcast : ((f.shares : ℤ) : ℚ) ≠ 0 := by exact_mod_cast hshares
    rw [havg, h0, Int.cast_zero, zero_mul, zero_add, zero_add, mul_div_cancel_left₀ _ hcast]
  · have hopens : ¬ f.Opens s.1 := by
      unfold Fill.Extends at hext
      unfold Fill.Opens Fill.Flips
      lia
    have hsign : 0 ≤ (s.1 : ℚ) ∧ 0 < (f.shares : ℚ) ∨ (s.1 : ℚ) ≤ 0 ∧ (f.shares : ℚ) < 0 := by
      have : 0 ≤ s.1 ∧ 0 < f.shares ∨ s.1 ≤ 0 ∧ f.shares < 0 := by
        unfold Fill.Extends at hext
        lia
      exact_mod_cast this
    obtain ⟨hlow, hhigh⟩ := weighted_between hsign p.state.avgEntryPrice f.price.toDouble
    rw [← havg] at hlow hhigh
    refine ⟨hposition, fun h => absurd h hne, fun _ => ?_, fun _ => ?_⟩
    · rcases min_le_iff.mp hlow with hle | hle
      · obtain ⟨g, hg, hgp⟩ := h.low h0
        exact ⟨g, mem_openedStep_of_mem hopens hg, hgp.trans hle⟩
      · exact ⟨f, mem_openedStep s f, hle⟩
    · rcases le_max_iff.mp hhigh with hle | hle
      · obtain ⟨g, hg, hgp⟩ := h.high h0
        exact ⟨g, mem_openedStep_of_mem hopens hg, hle.trans hgp⟩
      · exact ⟨f, mem_openedStep s f, hle⟩

/-- **A fill on the other side** keeps the average until the position is gone. -/
theorem Basis.opposes (h : Basis p s) (hopp : f.Opposes s.1) :
    Basis (p.onFill f.side f.price f.quantity) (openedStep s f) := by
  rw [← h.position] at hopp
  obtain ⟨hposition, havg, -⟩ := onFill_opposes hopp
  rw [h.position] at hposition havg hopp
  by_cases hclose : s.1 + f.shares = 0
  · rw [if_pos hclose] at havg
    exact ⟨hposition, fun _ => havg, fun hne => absurd hclose hne, fun hne => absurd hclose hne⟩
  · rw [if_neg hclose] at havg
    by_cases hflip : |s.1| ≤ |f.shares|
    · rw [if_pos hflip] at havg
      exact .of_eq hposition hclose havg (mem_openedStep s f)
    · rw [if_neg hflip] at havg
      have h0 : s.1 ≠ 0 := by
        unfold Fill.Opposes at hopp
        lia
      have hopens : ¬ f.Opens s.1 := not_or.mpr ⟨h0, mt (Fill.flips_iff hopp hclose).mp hflip⟩
      obtain ⟨g, hg, hgp⟩ := h.low h0
      obtain ⟨g', hg', hgp'⟩ := h.high h0
      exact ⟨hposition, fun h => absurd h hclose,
        fun _ => ⟨g, mem_openedStep_of_mem hopens hg, hgp.trans havg.ge⟩,
        fun _ => ⟨g', mem_openedStep_of_mem hopens hg', havg.le.trans hgp'⟩⟩

/-- **Step lemma.** -/
theorem Basis.onFill (h : Basis p s) (hf : 0 < f.quantity) :
    Basis (p.onFill f.side f.price f.quantity) (openedStep s f) := by
  rcases Fill.extends_or_opposes hf s.1 with hext | hopp
  · exact h.extends hf hext
  · exact h.opposes hopp

/-- **Run lemma.** -/
theorem basis_onFills (fills : List Fill) (hpos : ∀ f ∈ fills, 0 < f.quantity) :
    Basis (onFills {} fills) (run openedStep (0, []) fills) := by
  induction fills using List.reverseRecOn with
  | nil => exact basis_new
  | append_singleton fills f ih =>
    rw [onFills, run_concat, run_concat]
    exact (ih fun g hg => hpos g (List.mem_append_left _ hg)).onFill
      (hpos f (List.mem_append_right _ (List.mem_singleton_self f)))

/-- **What a fill can change.** The average moves with fills that extend, close or flip, the
realized P&L with fills on the other side. -/
theorem onFill_changes (hf : 0 < f.quantity) :
    let s := p.state
    let s' := (p.onFill f.side f.price f.quantity).state
    (s'.avgEntryPrice ≠ s.avgEntryPrice →
        f.Extends s.position ∨ f.Closes s.position ∨ f.Flips s.position) ∧
      (s'.realizedPnl ≠ s.realizedPnl → f.Opposes s.position) := by
  intro s s'
  rcases Fill.extends_or_opposes hf s.position with h | h
  · obtain ⟨-, -, hrealized⟩ := onFill_extends hf h
    exact ⟨fun _ => .inl h, fun hne => absurd hrealized hne⟩
  · obtain ⟨-, havg, -⟩ := onFill_opposes h
    refine ⟨fun hne => .inr ?_, fun _ => h⟩
    by_cases hclose : s.position + f.shares = 0
    · have h0 : s.position ≠ 0 := by
        unfold Fill.Opposes at h
        lia
      exact .inl ⟨h0, hclose⟩
    · by_contra hnot
      have hflip := mt (Fill.flips_iff h hclose).mpr (not_or.mp hnot).2
      rw [if_neg hclose, if_neg hflip] at havg
      exact hne havg

/-- **A true cost basis.** The average entry price is zero for a flat position and else between the
lowest and the highest price since the position was opened or flipped; only fills that extend, close
or flip the position change it, and only fills on the other side change the realized P&L. -/
theorem avg_is_cost_basis (fills : List Fill) (hpos : ∀ f ∈ fills, 0 < f.quantity) :
    let s := (onFills {} fills : Portfolio ℚ).state
    (s.position = 0 → s.avgEntryPrice = 0) ∧
    (s.position ≠ 0 →
      (∃ f ∈ sinceOpened fills, f.price.toDouble ≤ s.avgEntryPrice) ∧
        ∃ f ∈ sinceOpened fills, s.avgEntryPrice ≤ f.price.toDouble) ∧
    ∀ f : Fill, 0 < f.quantity →
      let s' := (onFills {} (fills ++ [f]) : Portfolio ℚ).state
      (s'.avgEntryPrice ≠ s.avgEntryPrice →
          f.Extends s.position ∨ f.Closes s.position ∨ f.Flips s.position) ∧
        (s'.realizedPnl ≠ s.realizedPnl → f.Opposes s.position) := by
  intro s
  have hb := basis_onFills fills hpos
  refine ⟨fun h => hb.flat (hb.position ▸ h), fun h => ?_, fun f hf => ?_⟩
  · exact ⟨hb.low (hb.position ▸ h), hb.high (hb.position ▸ h)⟩
  · rw [onFills, run_concat]
    exact onFill_changes hf

/-- A long position, reduced, flipped by more shares and extended. -/
def flipped : List Fill :=
  [⟨.buy, .fromTicks 1000000, 10⟩, ⟨.sell, .fromTicks 1020000, 4⟩, ⟨.sell, .fromTicks 990000, 16⟩,
    ⟨.sell, .fromTicks 970000, 10⟩]

theorem avg_is_cost_basis_flipped :
    (∃ f ∈ sinceOpened flipped,
        f.price.toDouble ≤ (onFills {} flipped : Portfolio ℚ).state.avgEntryPrice) ∧
      (∃ f ∈ sinceOpened flipped,
        (onFills {} flipped : Portfolio ℚ).state.avgEntryPrice ≤ f.price.toDouble) ∧
      sinceOpened flipped = flipped.drop 2 := by
  obtain ⟨-, h, -⟩ := avg_is_cost_basis flipped (by decide)
  obtain ⟨hlow, hhigh⟩ := h (by decide +kernel)
  exact ⟨hlow, hhigh, by decide +kernel⟩

end Portfolio

end Lob
