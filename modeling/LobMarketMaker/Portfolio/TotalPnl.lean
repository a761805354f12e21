import LobMarketMaker.Portfolio.CashIdentity

/-!
# When the total is the sum of its parts

Fills move the realized P&L, but the total is only computed by a mark, and a fill records the state
it leaves. So a fill that realizes something records a total that is not the sum.

* `Realizes`: the fill realizes a profit or a loss; `onFill_balanced_iff`: just these fills break
  the sum;
* **`total_balanced_iff`**: a run keeps the sum, in its states and its records, exactly if it has no
  such fill.
-/

set_option autoImplicit false

namespace Lob

open Foundation

/-- The calls that change a portfolio. -/
inductive PortfolioCall (F : Type) where
  | onFill (f : Fill)
  | markToMarket (markPrice : F)

namespace Portfolio

section Calls

variable {F : Type} [Double F]

/-- The operation a call names. -/
def call (p : Portfolio F) : PortfolioCall F → Portfolio F
  | .onFill f => p.onFill f.side f.price f.quantity
  | .markToMarket markPrice => p.markToMarket markPrice

/-- The portfolio after some calls. -/
def calls (p : Portfolio F) (cs : List (PortfolioCall F)) : Portfolio F := run call p cs

/-- The total is the sum of its parts, now and in every record. -/
def Balanced (p : Portfolio F) : Prop := p.state.Consistent ∧ ∀ s ∈ p.history, s.Consistent

/-- The fill closes shares at a price other than their average. -/
def Realizes (p : Portfolio F) (f : Fill) : Prop :=
  f.Opposes p.state.position ∧ f.price.toDouble ≠ p.state.avgEntryPrice

variable (p : Portfolio F) (side : Side) (price : Price) (qty : Quantity)

theorem onFill_total : (p.onFill side price qty).state.totalPnl = p.state.totalPnl := by
  unfold onFill
  dsimp only
  split_ifs <;> rfl

theorem onFill_unrealized :
    (p.onFill side price qty).state.unrealizedPnl = p.state.unrealizedPnl := by
  unfold onFill
  dsimp only
  split_ifs <;> rfl

theorem onFill_history :
    (p.onFill side price qty).history = p.history ++ [(p.onFill side price qty).state] := rfl

theorem Balanced.markToMarket {p : Portfolio F} (h : p.Balanced) (markPrice : F) :
    (p.markToMarket markPrice).Balanced :=
  ⟨p.markToMarket_consistent markPrice, h.2⟩

end Calls

variable {p : Portfolio ℚ} {f : Fill}

instance : Decidable (p.Realizes f) := by
  unfold Realizes
  infer_instance

theorem onFill_realized_eq_iff (hf : 0 < f.quantity) :
    (p.onFill f.side f.price f.quantity).state.realizedPnl = p.state.realizedPnl ↔
      ¬ p.Realizes f := by
  unfold Realizes
  rw [not_and_not_right]
  rcases Fill.extends_or_opposes hf p.state.position with h | h
  · obtain ⟨-, -, hrealized⟩ := onFill_extends hf h
    have hnot : ¬ f.Opposes p.state.position := by
      unfold Fill.Extends at h
      unfold Fill.Opposes
      lia
    exact ⟨fun _ hopp => absurd hopp hnot, fun _ => hrealized⟩
  · obtain ⟨-, -, hrealized⟩ := onFill_opposes h
    have hclosed : (f.closed p.state.position : ℚ) ≠ 0 := by exact_mod_cast Fill.closed_ne_zero h
    rw [hrealized, add_eq_left, mul_eq_zero, sub_eq_zero]
    exact ⟨fun heq _ => heq.resolve_left hclosed, fun heq => .inr (heq h)⟩

/-- **Step lemma.** A fill keeps the sum exactly if it realizes nothing. -/
theorem onFill_balanced_iff (h : p.Balanced) (hf : 0 < f.quantity) :
    (p.onFill f.side f.price f.quantity).Balanced ↔ ¬ p.Realizes f := by
  have hstate : (p.onFill f.side f.price f.quantity).state.Consistent ↔ ¬ p.Realizes f := by
    rw [← onFill_realized_eq_iff hf, PositionState.Consistent, onFill_total, onFill_unrealized, h.1,
      add_left_inj]
    exact eq_comm
  rw [← hstate]
  refine ⟨And.left, fun hc => ⟨hc, fun s hs => ?_⟩⟩
  rw [onFill_history] at hs
  rcases List.mem_append.mp hs with hs | hs
  · exact h.2 s hs
  · rw [List.mem_singleton.mp hs]
    exact hc

theorem balanced_new : ({} : Portfolio ℚ).Balanced := by
  refine ⟨?_, fun s hs => absurd hs List.not_mem_nil⟩
  show (0 : ℚ) = 0 + 0
  norm_num

/-- **When the total is the sum of its parts.** It is so after every call and in every record
exactly if every fill meets a flat position, extends it, or has its average entry price. -/
theorem total_balanced_iff (cs : List (PortfolioCall ℚ))
    (hpos : ∀ f, .onFill f ∈ cs → 0 < f.quantity) :
    (∀ pre, pre <+: cs → (calls {} pre : Portfolio ℚ).Balanced) ↔
      ∀ pre f, pre ++ [.onFill f] <+: cs → ¬ (calls {} pre : Portfolio ℚ).Realizes f := by
  constructor
  · intro h pre f hpre
    have hf := hpos f (hpre.subset (List.mem_append_right _ (List.mem_singleton_self _)))
    have hafter := h _ hpre
    rw [calls, run_concat] at hafter
    exact (onFill_balanced_iff (h pre ((List.prefix_append _ _).trans hpre)) hf).mp hafter
  · intro h pre
    induction pre using List.reverseRecOn with
    | nil => exact fun _ => balanced_new
    | append_singleton pre c ih =>
      intro hpre
      have hb := ih ((List.prefix_append _ _).trans hpre)
      rw [calls, run_concat]
      cases c with
      | onFill f =>
        have hf := hpos f (hpre.subset (List.mem_append_right _ (List.mem_singleton_self _)))
        exact (onFill_balanced_iff hb hf).mpr (h pre f hpre)
      | markToMarket markPrice => exact hb.markToMarket markPrice

/-- Bought at $100, sold at $110. -/
def profit : List (PortfolioCall ℚ) :=
  [.onFill ⟨.buy, .fromTicks 1000000, 10⟩, .onFill ⟨.sell, .fromTicks 1100000, 10⟩]

/-- **The realized profit is not in the total.** -/
theorem total_not_balanced :
    ¬ ∀ cs : List (PortfolioCall ℚ), (∀ f, .onFill f ∈ cs → 0 < f.quantity) →
      ∀ pre, pre <+: cs → (calls {} pre : Portfolio ℚ).Balanced := by
  intro h
  have hb := h profit (by simp [profit]) profit (List.prefix_refl _)
  have hne : (calls {} profit : Portfolio ℚ).state.totalPnl ≠
      (calls {} profit : Portfolio ℚ).state.realizedPnl +
        (calls {} profit : Portfolio ℚ).state.unrealizedPnl := by
    decide +kernel
  exact hne hb.1

/-- Bought, marked, sold at the average. -/
def scratch : List (PortfolioCall ℚ) :=
  [.onFill ⟨.buy, .fromTicks 1000000, 10⟩, .markToMarket 101,
    .onFill ⟨.sell, .fromTicks 1000000, 4⟩]

theorem total_balanced_scratch : (calls {} scratch : Portfolio ℚ).Balanced := by
  refine (total_balanced_iff scratch (by simp [scratch])).mpr (fun pre f hpre => ?_) scratch
    (List.prefix_refl _)
  rcases (@List.prefix_concat_iff _ _ (scratch.take 2) _).mp hpre with h | h
  · obtain ⟨rfl, hf⟩ := List.append_inj' h rfl
    cases hf
    decide +kernel
  · rcases (@List.prefix_concat_iff _ _ (scratch.take 1) _).mp h with h | h
    · obtain ⟨-, hf⟩ := List.append_inj' h rfl
      cases hf
    · rcases (@List.prefix_concat_iff _ _ [] _).mp h with h | h
      · obtain ⟨rfl, hf⟩ := List.append_inj' h rfl
        cases hf
        decide +kernel
      · exact absurd (List.prefix_nil.mp h) (by simp)

end Portfolio

end Lob
