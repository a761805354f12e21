import Mathlib.Algebra.BigOperators.Group.List.Basic
import Mathlib.Algebra.Order.Ring.Nat
import Mathlib.Data.List.Sort
import Mathlib.Order.Monotone.Basic

/-!
# Order statistics from a histogram

The `k`-th smallest of a list, counted from one, and how a cumulative scan of bucket counts finds
its bucket.

* `kthSmallest l k`: the order statistic; `le_countP_iff`: at least `k` elements satisfy a
  downward-closed predicate exactly if the `k`-th smallest does; `kthSmallest_le`: it grows with
  `k`;
* `histogram f n l`: how many elements `f` sends to each of the buckets `0 … n - 1`;
  `histogram_concat`: a further element raises one count; `sum_take_histogram`: the first `j` counts
  add up to the number of elements below bucket `j`;
* `firstReaching`: the first position where the running total of the counts reaches a target;
* **`firstReaching_histogram`**: with `f` monotone, the scan for `k` stops at the bucket of the
  `k`-th smallest.
-/

set_option autoImplicit false

namespace Foundation

/-! ### Order statistics -/

section OrderStatistics

variable {α : Type} [LinearOrder α]

/-- The `k`-th smallest element, `k` counted from one. -/
def kthSmallest (l : List α) (k : ℕ) : Option α := (l.insertionSort (· ≤ ·))[k - 1]?

variable {l : List α} {k k' : ℕ} {x y : α}

theorem exists_kthSmallest (h₁ : 1 ≤ k) (h₂ : k ≤ l.length) : ∃ x, kthSmallest l k = some x := by
  have hlt : k - 1 < (l.insertionSort (· ≤ ·)).length := by
    rw [List.length_insertionSort]
    omega
  exact ⟨_, List.getElem?_eq_getElem hlt⟩

theorem mem_of_kthSmallest (h : kthSmallest l k = some x) : x ∈ l :=
  (List.mem_insertionSort _).mp (List.mem_of_getElem? h)

private theorem lt_countP_iff_of_sorted {l : List α} (hl : l.Pairwise (· ≤ ·)) {P : α → Bool}
    (hP : ∀ x y, x ≤ y → P y → P x) {i : ℕ} (h : l[i]? = some x) : i < l.countP P ↔ P x := by
  induction l generalizing i with
  | nil => cases h
  | cons a l ih =>
    obtain ⟨hhead, htail⟩ := List.pairwise_cons.mp hl
    rcases Bool.eq_false_or_eq_true (P a) with ha | ha
    · rw [List.countP_cons_of_pos ha]
      cases i with
      | zero =>
        obtain rfl := Option.some.inj h
        exact iff_of_true (Nat.succ_pos _) ha
      | succ i => exact Nat.succ_lt_succ_iff.trans (ih htail h)
    · -- the head already fails, so nothing behind it is counted
      have hnone : (a :: l).countP P = 0 := by
        rw [List.countP_eq_zero]
        intro y hy hPy
        have hle : a ≤ y := by
          rcases List.mem_cons.mp hy with rfl | hy
          · exact le_rfl
          · exact hhead y hy
        rw [hP a y hle hPy] at ha
        cases ha
      have hx : ¬ P x := List.countP_eq_zero.mp hnone x (List.mem_of_getElem? h)
      rw [hnone]
      exact iff_of_false (Nat.not_lt_zero _) hx

/-- **The order statistic as a count.** -/
theorem le_countP_iff {P : α → Bool} (hP : ∀ x y, x ≤ y → P y → P x) (hk : 1 ≤ k)
    (h : kthSmallest l k = some x) : k ≤ l.countP P ↔ P x := by
  have hsorted := List.pairwise_insertionSort (· ≤ ·) l
  rw [← lt_countP_iff_of_sorted hsorted hP h, (List.perm_insertionSort _ l).countP_eq P]
  omega

theorem kthSmallest_le (hk : k ≤ k') (h : kthSmallest l k = some x)
    (h' : kthSmallest l k' = some y) : x ≤ y := by
  obtain ⟨hi, hx⟩ := List.getElem?_eq_some_iff.mp h
  obtain ⟨hj, hy⟩ := List.getElem?_eq_some_iff.mp h'
  rw [← hx, ← hy]
  exact List.sortedLE_insertionSort.getElem_le_getElem_of_le (Nat.sub_le_sub_right hk 1)

end OrderStatistics

/-! ### Histograms -/

section Histogram

variable {α : Type} (f : α → ℕ) (n : ℕ)

/-- The number of elements of each of the first `n` buckets. -/
def histogram (l : List α) : List ℕ := (List.range n).map fun i : ℕ => l.countP (f · = i)

variable {f n} {l : List α}

@[simp] theorem length_histogram : (histogram f n l).length = n := by
  rw [histogram, List.length_map, List.length_range]

theorem histogram_nil : histogram f n [] = List.replicate n 0 := by
  have hcount : (fun i : ℕ => ([] : List α).countP (f · = i)) = fun _ => 0 := rfl
  rw [histogram, hcount, List.map_const', List.length_range]

theorem histogram_concat (x : α) :
    histogram f n (l ++ [x]) = (histogram f n l).modify (f x) (· + 1) := by
  refine List.ext_getElem ?_ fun i h₁ h₂ => ?_
  · rw [List.length_modify, length_histogram, length_histogram]
  · rw [List.getElem_modify]
    simp only [histogram, List.getElem_map, List.getElem_range, List.countP_append,
      List.countP_singleton, decide_eq_true_eq]
    split <;> rfl

theorem countP_lt_succ (j : ℕ) :
    l.countP (f · < j + 1) = l.countP (f · < j) + l.countP (f · = j) := by
  induction l with
  | nil => rfl
  | cons x l ih =>
    rw [List.countP_cons, List.countP_cons, List.countP_cons, ih]
    simp only [decide_eq_true_eq]
    split_ifs <;> omega

theorem sum_take_histogram {j : ℕ} (hj : j ≤ n) :
    ((histogram f n l).take j).sum = l.countP (f · < j) := by
  rw [histogram, ← List.map_take, List.take_range, Nat.min_eq_left hj]
  clear hj
  induction j with
  | zero =>
    symm
    rw [List.range_zero, List.map_nil, List.sum_nil, List.countP_eq_zero]
    intro x _
    simp
  | succ j ih =>
    rw [List.range_succ, List.map_append, List.sum_append, ih, countP_lt_succ, List.map_singleton,
      List.sum_singleton]

end Histogram

/-! ### The cumulative scan -/

/-- The first position, counted from `i`, where the running total, from `total` on, reaches
`target`. -/
def firstReaching (target : ℕ) : List ℕ → ℕ → ℕ → Option ℕ
  | [], _, _ => none
  | c :: counts, i, total =>
    if total + c ≥ target then some i else firstReaching target counts (i + 1) (total + c)

theorem firstReaching_eq_some {target : ℕ} {counts : List ℕ} {i total j : ℕ}
    (hj : j < counts.length) (hlt : total + (counts.take j).sum < target)
    (hge : target ≤ total + (counts.take (j + 1)).sum) :
    firstReaching target counts i total = some (i + j) := by
  induction counts generalizing i total j with
  | nil => exact absurd hj (Nat.not_lt_zero j)
  | cons c counts ih =>
    cases j with
    | zero =>
      rw [List.take_succ_cons, List.take_zero, List.sum_singleton] at hge
      rw [firstReaching, if_pos hge, Nat.add_zero]
    | succ j =>
      rw [List.take_succ_cons, List.sum_cons, ← Nat.add_assoc] at hlt hge
      have hnot : ¬ total + c ≥ target := by omega
      rw [firstReaching, if_neg hnot, ih (Nat.lt_of_succ_lt_succ hj) hlt hge]
      congr 1
      omega

/-- **The scan stops at the bucket of the order statistic.** -/
theorem firstReaching_histogram {α : Type} [LinearOrder α] {f : α → ℕ} (hf : Monotone f) {n k : ℕ}
    {l : List α} {x : α} (hk : 1 ≤ k) (h : kthSmallest l k = some x) (hx : f x < n) :
    firstReaching k (histogram f n l) 0 0 = some (f x) := by
  have hcount (j : ℕ) : k ≤ l.countP (f · < j) ↔ f x < j := by
    rw [le_countP_iff (P := (f · < j)) ?_ hk h, decide_eq_true_eq]
    intro y z hyz hz
    rw [decide_eq_true_eq] at hz ⊢
    exact (hf hyz).trans_lt hz
  rw [firstReaching_eq_some (j := f x), Nat.zero_add]
  · rwa [length_histogram]
  · rw [sum_take_histogram hx.le, Nat.zero_add, ← not_le, hcount]
    exact lt_irrefl _
  · rw [sum_take_histogram hx, Nat.zero_add, hcount]
    exact Nat.lt_succ_self _

end Foundation
