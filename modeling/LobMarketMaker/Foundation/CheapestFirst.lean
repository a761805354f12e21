import Mathlib.Algebra.BigOperators.Group.List.Basic
import Mathlib.Algebra.Order.Ring.Cast
import Mathlib.Data.List.Forall2
import Mathlib.Tactic.Linarith
import Mathlib.Tactic.Ring

/-!
# Buying from the cheapest seller first

Sellers `l` ask `price x` for a unit and have `cap x` units each. A purchase is a list of amounts, one
for each seller.

* `Within`, `cost`: a purchase that no seller exceeds, and what it costs;
* `CheapestFirst`: a seller is only turned to when the ones before are sold out;
* `exists_threshold`: with the sellers in order of price, some price divides those sold out from
  those not turned to;
* **`cost_minimal`**: so no purchase of as many units costs less;
* `cost_between`: it costs as much as the same number of units at some price between the prices paid.
-/

set_option autoImplicit false

namespace Foundation

variable {α R : Type}

/-! ### Purchases -/

section Purchases

variable [CommRing R] (price : α → R) (cap : α → ℤ)

/-- No seller gives more than they have. -/
def Within (l : List α) (amounts : List ℤ) : Prop :=
  List.Forall₂ (fun x n => 0 ≤ n ∧ n ≤ cap x) l amounts

/-- The price of all units. -/
def cost (l : List α) (amounts : List ℤ) : R :=
  (List.zipWith (fun x (n : ℤ) => (n : R) * price x) l amounts).sum

/-- As long as a seller has units left, nothing is taken from the ones behind. -/
def CheapestFirst : List α → List ℤ → Prop
  | x :: l, n :: ns => (n < cap x → ∀ m ∈ ns, m = 0) ∧ CheapestFirst l ns
  | _, _ => True

variable {price}

@[simp] theorem cost_cons (x : α) (l : List α) (n : ℤ) (ns : List ℤ) :
    cost price (x :: l) (n :: ns) = (n : R) * price x + cost price l ns := by
  rw [cost, List.zipWith_cons_cons, List.sum_cons]
  rfl

@[simp] theorem cost_nil (ns : List ℤ) : cost price ([] : List α) ns = 0 := rfl

theorem cost_neg (l : List α) (ns : List ℤ) :
    cost (fun x => -price x) l ns = -cost price l ns := by
  induction l generalizing ns with
  | nil => exact neg_zero.symm
  | cons x l ih =>
    cases ns with
    | nil => exact neg_zero.symm
    | cons n ns =>
      rw [cost_cons, cost_cons, ih]
      ring

end Purchases

/-! ### The cheapest purchase -/

section Cheapest

variable [CommRing R] [LinearOrder R] [IsStrictOrderedRing R] {price : α → R} {cap : α → ℤ}
  {l : List α} {ns ms : List ℤ}

/-- Sellers below the price `w` are sold out, those above it are not turned to. -/
def Threshold (price : α → R) (cap : α → ℤ) (w : R) (x : α) (n : ℤ) : Prop :=
  (price x < w → n = cap x) ∧ (w < price x → n = 0)

omit [IsStrictOrderedRing R] in
theorem exists_threshold (hsorted : l.Pairwise fun x y => price x ≤ price y)
    (hw : Within cap l ns) (hfirst : CheapestFirst cap l ns) :
    ∃ w, List.Forall₂ (Threshold price cap w) l ns := by
  induction hw with
  | nil => exact ⟨0, .nil⟩
  | @cons x n l ns hn hns ih =>
    obtain ⟨hx, hl⟩ := List.pairwise_cons.mp hsorted
    by_cases hsold : n < cap x
    · -- the first with units left sets the price
      refine ⟨price x, .cons ⟨fun h => absurd h (lt_irrefl _), fun h => absurd h (lt_irrefl _)⟩ ?_⟩
      have hzero := hfirst.1 hsold
      clear ih hl hfirst hsorted
      induction hns with
      | nil => exact .nil
      | @cons y m l ns hm hns ih =>
        refine .cons ⟨fun h => absurd h (not_lt.mpr (hx y List.mem_cons_self)),
          fun _ => hzero m List.mem_cons_self⟩ ?_
        exact ih (fun z hz => hx z (List.mem_cons_of_mem _ hz))
          fun k hk => hzero k (List.mem_cons_of_mem _ hk)
    · obtain ⟨w, hthreshold⟩ := ih hl hfirst.2
      refine ⟨max w (price x), .cons ⟨fun _ => le_antisymm hn.2 (not_lt.mp hsold),
        fun h => absurd h (not_lt.mpr (le_max_right _ _))⟩ ?_⟩
      refine (List.forall₂_and_left _ _).mpr ⟨hx, hthreshold⟩ |>.imp ?_
      rintro y m ⟨hxy, hbelow, habove⟩
      refine ⟨fun h => hbelow ?_, fun h => habove (lt_of_le_of_lt (le_max_left _ _) h)⟩
      rcases lt_max_iff.mp h with h | h
      · exact h
      · exact absurd h (not_lt.mpr hxy)

theorem threshold_le {w : R} {x : α} {n m : ℤ} (h : Threshold price cap w x n)
    (hm : 0 ≤ m ∧ m ≤ cap x) : (n : R) * (price x - w) ≤ m * (price x - w) := by
  rcases lt_trichotomy (price x) w with hlt | heq | hgt
  · have hle : (m : R) ≤ n := by
      rw [h.1 hlt]
      exact_mod_cast hm.2
    exact mul_le_mul_of_nonpos_right hle (by linarith)
  · rw [heq, sub_self, mul_zero, mul_zero]
  · have hle : (n : R) ≤ m := by
      rw [h.2 hgt]
      exact_mod_cast hm.1
    exact mul_le_mul_of_nonneg_right hle (by linarith)

theorem threshold_cost_le {w : R} (h : List.Forall₂ (Threshold price cap w) l ns)
    (hm : Within cap l ms) :
    cost price l ns - ns.sum * w ≤ cost price l ms - ms.sum * w := by
  induction h generalizing ms with
  | nil =>
    cases hm
    exact le_refl _
  | @cons x n l ns hx hl ih =>
    cases hm with
    | @cons _ m _ ms hm hms =>
      have h₁ := threshold_le hx hm
      have h₂ := ih hms
      rw [cost_cons, cost_cons, List.sum_cons, List.sum_cons, Int.cast_add, Int.cast_add]
      linarith

/-- **Cheapest first costs least.** -/
theorem cost_minimal (hsorted : l.Pairwise fun x y => price x ≤ price y)
    (hn : Within cap l ns) (hfirst : CheapestFirst cap l ns) (hm : Within cap l ms)
    (hsum : ms.sum = ns.sum) : cost price l ns ≤ cost price l ms := by
  obtain ⟨w, hw⟩ := exists_threshold hsorted hn hfirst
  have h := threshold_cost_le hw hm
  rw [hsum] at h
  linarith

theorem cost_ge {p : R} (hn : Within cap l ns)
    (hp : ∀ x n, (x, n) ∈ l.zip ns → 0 < n → p ≤ price x) : ns.sum * p ≤ cost price l ns := by
  induction hn with
  | nil =>
    rw [List.sum_nil, Int.cast_zero, zero_mul]
    exact le_refl _
  | @cons x n l ns hx hl ih =>
    have hrest := ih fun y m hm => hp y m (List.mem_cons_of_mem _ hm)
    have hhead : (n : R) * p ≤ n * price x := by
      rcases hx.1.eq_or_lt with rfl | hpos
      · rw [Int.cast_zero, zero_mul, zero_mul]
      · have hcast : (0 : R) ≤ n := by exact_mod_cast hx.1
        exact mul_le_mul_of_nonneg_left (hp x n List.mem_cons_self hpos) hcast
    rw [cost_cons, List.sum_cons, Int.cast_add, add_mul]
    exact add_le_add hhead hrest

/-- **A purchase costs no less and no more than at the extreme prices paid.** -/
theorem cost_between {low high : R} (hn : Within cap l ns)
    (hlow : ∀ x n, (x, n) ∈ l.zip ns → 0 < n → low ≤ price x)
    (hhigh : ∀ x n, (x, n) ∈ l.zip ns → 0 < n → price x ≤ high) :
    ns.sum * low ≤ cost price l ns ∧ cost price l ns ≤ ns.sum * high := by
  refine ⟨cost_ge hn hlow, ?_⟩
  have h : (ns.sum : R) * -high ≤ cost (fun x => -price x) l ns :=
    cost_ge hn fun x n hm hpos => neg_le_neg (hhigh x n hm hpos)
  rw [cost_neg] at h
  linarith

end Cheapest

end Foundation
