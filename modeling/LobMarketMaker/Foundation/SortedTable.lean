import Mathlib.Data.List.Sort
import Mathlib.Order.RelClasses
import Mathlib.Tactic.Common

/-!
# Tables kept sorted by binary search

A table is a list of entries, strictly sorted by a key. The C++ way to keep it is
`std::lower_bound` followed by an insertion, an overwrite or an erasure at the position found.

* `lowerBound`: the halving search; `lowerBound_eq`: on a list partitioned by the predicate it
  returns the number of leading entries that satisfy it;
* `sorted_split`: a sorted table is *before `k`*, *at `k`*, *after `k`*, and holds at most one
  entry at `k`;
* `sorted_unique`, `head?_key_eq_some`: the entries determine the table, and the first is the best;
* `put`, `remove`: the map operations; `insertIdx_lowerBound`, `set_lowerBound`,
  `eraseIdx_lowerBound`: what the positional operations compute on a sorted table.
-/

set_option autoImplicit false

namespace Foundation

section Search

variable {α : Type} (before : α → Bool) (l : List α)

/-- The loop of `std::lower_bound` on the `len` entries from `first` on. -/
def lowerBoundLoop : ℕ → ℕ → ℕ → ℕ
  | 0, first, _ => first
  | fuel + 1, first, len =>
    if len = 0 then first
    else if (l[first + len / 2]?).any before then
      lowerBoundLoop fuel (first + len / 2 + 1) (len - len / 2 - 1)
    else lowerBoundLoop fuel first (len / 2)

/-- `std::lower_bound`: the position of the first entry that is not `before` the target, found by
halving. The range shrinks in each round, so its length is fuel enough. -/
def lowerBound : ℕ := lowerBoundLoop before l l.length 0 l.length

theorem lowerBoundLoop_eq {k : ℕ} (hk : ∀ i, (l[i]?).any before = decide (i < k)) :
    ∀ fuel first len, len ≤ fuel → first ≤ k → k ≤ first + len →
      lowerBoundLoop before l fuel first len = k := by
  intro fuel
  induction fuel with
  | zero =>
    intro first len h1 h2 h3
    rw [lowerBoundLoop]; omega
  | succ fuel ih =>
    intro first len h1 h2 h3
    rw [lowerBoundLoop]
    by_cases hlen : len = 0
    · rw [if_pos hlen]; omega
    · rw [if_neg hlen, hk]
      by_cases hmid : first + len / 2 < k
      · simp only [hmid, decide_true, if_true]
        exact ih _ _ (by omega) (by omega) (by omega)
      · simp only [hmid, decide_false, Bool.false_eq_true, if_false]
        exact ih _ _ (by omega) h2 (by omega)

theorem any_getElem?_eq (hp : l.Pairwise fun a b => before b → before a) (i : ℕ) :
    (l[i]?).any before = decide (i < (l.takeWhile before).length) := by
  induction l generalizing i with
  | nil => simp
  | cons a l ih =>
    obtain ⟨ha, hl⟩ := List.pairwise_cons.mp hp
    cases hb : before a with
    | true =>
      rw [List.takeWhile_cons_of_pos hb]
      cases i with
      | zero => simp [hb]
      | succ i => simpa using ih hl i
    | false =>
      rw [List.takeWhile_cons_of_neg (by simp [hb])]
      cases i with
      | zero => simp [hb]
      | succ i =>
        cases h : l[i]? with
        | none => simp [h]
        | some b =>
          have hb' : before b = false := by
            by_contra hc
            have := ha b (List.mem_of_getElem? h) (by simpa using hc)
            rw [hb] at this; exact Bool.noConfusion this
          simp [h, hb']

theorem lowerBound_eq (hp : l.Pairwise fun a b => before b → before a) :
    lowerBound before l = (l.takeWhile before).length :=
  lowerBoundLoop_eq before l (any_getElem?_eq before l hp) _ _ _ (Nat.le_refl _) (Nat.zero_le _)
    (by rw [Nat.zero_add]; exact (List.takeWhile_sublist before).length_le)

end Search

section Table

variable {α κ : Type} (key : α → κ) (r : κ → κ → Prop)

/-- Strictly sorted by key. -/
def Sorted (l : List α) : Prop := l.Pairwise fun a b => r (key a) (key b)

theorem sorted_nil : Sorted key r [] := List.Pairwise.nil

/-- The entries before `k`. -/
def beforeKey [DecidableRel r] (k : κ) (l : List α) : List α := l.filter fun a => r (key a) k

/-- The entries at `k`. -/
def atKey [DecidableEq κ] (k : κ) (l : List α) : List α := l.filter fun a => key a = k

/-- The entries after `k`. -/
def afterKey [DecidableRel r] (k : κ) (l : List α) : List α := l.filter fun a => r k (key a)

/-- The table with `x` as its only entry at the key of `x`. -/
def put [DecidableRel r] (x : α) (l : List α) : List α :=
  beforeKey key r (key x) l ++ x :: afterKey key r (key x) l

/-- The table without an entry at `k`. -/
def remove [DecidableEq κ] (k : κ) (l : List α) : List α := l.filter fun a => key a ≠ k

variable {key r}

theorem Sorted.remove [DecidableEq κ] {l : List α} (hl : Sorted key r l) (k : κ) :
    Sorted key r (remove key k l) := hl.filter _

theorem mem_remove [DecidableEq κ] {k : κ} {l : List α} {y : α} :
    y ∈ remove key k l ↔ y ∈ l ∧ key y ≠ k := by
  simp [Foundation.remove]

theorem remove_eq_self [DecidableEq κ] {l : List α} {k : κ} (h : ∀ y ∈ l, key y ≠ k) :
    remove key k l = l :=
  List.filter_eq_self.mpr fun y hy => by simpa using h y hy

theorem atKey_eq_nil [DecidableEq κ] {l : List α} {k : κ} (h : ∀ y ∈ l, key y ≠ k) :
    atKey key k l = [] :=
  List.filter_eq_nil_iff.mpr fun y hy => by simpa using h y hy

variable [IsStrictTotalOrder κ r]

theorem ne_of_rel {a b : κ} (h : r a b) : a ≠ b := by
  rintro rfl
  exact irrefl_of r a h

theorem not_rel_of_rel {a b : κ} (h : r a b) : ¬ r b a := fun h' => asymm_of r h h'

theorem Sorted.put [DecidableRel r] {l : List α} (hl : Sorted key r l) (x : α) :
    Sorted key r (put key r x l) := by
  refine List.pairwise_append.mpr ⟨hl.filter _, List.pairwise_cons.mpr ⟨?_, hl.filter _⟩, ?_⟩
  · intro b hb
    simpa using (List.mem_filter.mp hb).2
  · intro a ha b hb
    have hax : r (key a) (key x) := by simpa using (List.mem_filter.mp ha).2
    rcases List.mem_cons.mp hb with rfl | hb
    · exact hax
    · exact trans_of r hax (by simpa using (List.mem_filter.mp hb).2)

theorem mem_put [DecidableRel r] {l : List α} {x y : α} :
    y ∈ put key r x l ↔ y = x ∨ y ∈ l ∧ key y ≠ key x := by
  simp only [Foundation.put, beforeKey, afterKey, List.mem_append, List.mem_cons, List.mem_filter,
    decide_eq_true_eq]
  constructor
  · rintro (⟨h, hr⟩ | h | ⟨h, hr⟩)
    · exact Or.inr ⟨h, ne_of_rel hr⟩
    · exact Or.inl h
    · exact Or.inr ⟨h, (ne_of_rel hr).symm⟩
  · rintro (h | ⟨h, hne⟩)
    · exact Or.inr (Or.inl h)
    · rcases trichotomous_of r (key y) (key x) with h' | h' | h'
      · exact Or.inl ⟨h, h'⟩
      · exact absurd h' hne
      · exact Or.inr (Or.inr ⟨h, h'⟩)

/-- **A sorted table is determined by its entries.** -/
theorem sorted_unique {l l' : List α} (hl : Sorted key r l) (hl' : Sorted key r l')
    (h : ∀ x, x ∈ l ↔ x ∈ l') : l = l' := by
  have hirr : Std.Irrefl fun a b : α => r (key a) (key b) := ⟨fun a => irrefl_of r (key a)⟩
  have hanti : Std.Antisymm fun a b : α => r (key a) (key b) :=
    ⟨fun _ _ hab hba => absurd hba (not_rel_of_rel hab)⟩
  exact List.Pairwise.eq_of_mem_iff hl hl' h

/-- **The first entry has the best key.** -/
theorem head?_key_eq_some {l : List α} (hl : Sorted key r l) (k : κ) :
    l.head?.map key = some k ↔ (∃ y ∈ l, key y = k) ∧ ∀ y ∈ l, key y = k ∨ r k (key y) := by
  cases l with
  | nil => simp
  | cons a l =>
    have ha := (List.pairwise_cons.mp hl).1
    simp only [List.head?_cons, Option.map_some, Option.some.injEq]
    constructor
    · rintro rfl
      refine ⟨⟨a, List.mem_cons_self, rfl⟩, fun y hy => ?_⟩
      rcases List.mem_cons.mp hy with rfl | hy
      · exact Or.inl rfl
      · exact Or.inr (ha y hy)
    · rintro ⟨⟨y, hy, rfl⟩, hbest⟩
      rcases List.mem_cons.mp hy with rfl | hy
      · rfl
      · rcases hbest a List.mem_cons_self with h | h
        · exact h
        · exact absurd (ha y hy) (not_rel_of_rel h)

variable [DecidableEq κ]

theorem atKey_eq {l : List α} (hl : Sorted key r l) {x : α} (hx : x ∈ l) :
    atKey key (key x) l = [x] := by
  induction l with
  | nil => exact absurd hx List.not_mem_nil
  | cons a l ih =>
    obtain ⟨ha, hl'⟩ := List.pairwise_cons.mp hl
    rcases List.mem_cons.mp hx with rfl | hx'
    · rw [atKey, List.filter_cons_of_pos (by simp), List.filter_eq_nil_iff.mpr]
      intro b hb
      simpa using (ne_of_rel (ha b hb)).symm
    · rw [atKey, List.filter_cons_of_neg (by simpa using ne_of_rel (ha x hx'))]
      exact ih hl' hx'

variable [DecidableRel r]

/-- **A sorted table splits at every key.** -/
theorem sorted_split {l : List α} (hl : Sorted key r l) (k : κ) :
    l = beforeKey key r k l ++ (atKey key k l ++ afterKey key r k l) := by
  induction l with
  | nil => rfl
  | cons a l ih =>
    obtain ⟨ha, hl'⟩ := List.pairwise_cons.mp hl
    have later : ∀ {p : α → Bool}, (∀ b ∈ l, p b = false) → l.filter p = [] := fun h =>
      List.filter_eq_nil_iff.mpr fun b hb => by simp [h b hb]
    have all : ∀ {p : α → Bool}, (∀ b ∈ l, p b = true) → l.filter p = l := fun h =>
      List.filter_eq_self.mpr h
    rcases trichotomous_of r (key a) k with h | h | h
    · have h1 := ne_of_rel h
      have h2 : ¬ r k (key a) := not_rel_of_rel h
      simp only [beforeKey, atKey, afterKey, List.filter_cons, h, h1, h2, decide_true,
        decide_false, Bool.false_eq_true, if_true, if_false, List.cons_append, List.cons.injEq,
        true_and]
      exact ih hl'
    · subst h
      have h1 : ¬ r (key a) (key a) := irrefl_of r _
      simp only [beforeKey, atKey, afterKey, List.filter_cons, h1, decide_true, decide_false,
        Bool.false_eq_true, if_true, if_false]
      rw [later fun b hb => by simpa using not_rel_of_rel (ha b hb),
        later fun b hb => by simpa using (ne_of_rel (ha b hb)).symm,
        all fun b hb => by simpa using ha b hb]
      rfl
    · have h1 := (ne_of_rel h).symm
      have h2 : ¬ r (key a) k := not_rel_of_rel h
      have hk : ∀ b ∈ l, r k (key b) := fun b hb => trans_of r h (ha b hb)
      simp only [beforeKey, atKey, afterKey, List.filter_cons, h, h1, h2, decide_true,
        decide_false, Bool.false_eq_true, if_true, if_false]
      rw [later fun b hb => by simpa using not_rel_of_rel (hk b hb),
        later fun b hb => by simpa using (ne_of_rel (hk b hb)).symm,
        all fun b hb => by simpa using hk b hb]
      rfl

/-! ### The positional operations -/

theorem lowerBound_sorted {l : List α} (hl : Sorted key r l) (k : κ) :
    lowerBound (fun a => r (key a) k) l = (beforeKey key r k l).length := by
  have hpart : l.Pairwise fun a b => decide (r (key b) k) = true → decide (r (key a) k) = true := by
    refine hl.imp fun {a b} hab hb => ?_
    simp only [decide_eq_true_eq] at hb ⊢
    exact trans_of r hab hb
  have hpos : ∀ a ∈ beforeKey key r k l, decide (r (key a) k) = true := fun a ha =>
    (List.mem_filter.mp ha).2
  have hneg : ∀ a ∈ atKey key k l ++ afterKey key r k l, ¬ r (key a) k := by
    intro a ha
    rcases List.mem_append.mp ha with ha | ha
    · have hk : key a = k := by simpa using (List.mem_filter.mp ha).2
      rw [hk]; exact irrefl_of r k
    · exact not_rel_of_rel (by simpa using (List.mem_filter.mp ha).2)
  have htake : l.takeWhile (fun a => decide (r (key a) k)) = beforeKey key r k l := by
    conv_lhs => rw [sorted_split hl k]
    rw [List.takeWhile_append_of_pos hpos]
    cases h : atKey key k l ++ afterKey key r k l with
    | nil => simp
    | cons a t =>
      rw [h] at hneg
      rw [List.takeWhile_cons_of_neg (by simpa using hneg a List.mem_cons_self), List.append_nil]
  rw [lowerBound_eq _ _ hpart, htake]

theorem getElem?_lowerBound {l : List α} (hl : Sorted key r l) {y : α} (hy : y ∈ l) :
    l[lowerBound (fun a => r (key a) (key y)) l]? = some y := by
  have hs := sorted_split hl (key y)
  rw [atKey_eq hl hy] at hs
  rw [lowerBound_sorted hl]
  calc l[(beforeKey key r (key y) l).length]?
      = (beforeKey key r (key y) l ++ ([y] ++ afterKey key r (key y) l))[
          (beforeKey key r (key y) l).length]? := by rw [← hs]
    _ = some y := by
      rw [List.getElem?_append_right (Nat.le_refl _), Nat.sub_self]
      rfl

theorem remove_eq {l : List α} (hl : Sorted key r l) (k : κ) :
    remove key k l = beforeKey key r k l ++ afterKey key r k l := by
  conv_lhs => rw [sorted_split hl k]
  rw [remove, List.filter_append, List.filter_append]
  have h1 : (beforeKey key r k l).filter (fun a => key a ≠ k) = beforeKey key r k l :=
    List.filter_eq_self.mpr fun a ha => by
      simpa using ne_of_rel (r := r) (by simpa using (List.mem_filter.mp ha).2)
  have h2 : (atKey key k l).filter (fun a => key a ≠ k) = [] :=
    List.filter_eq_nil_iff.mpr fun a ha => by simpa using (List.mem_filter.mp ha).2
  have h3 : (afterKey key r k l).filter (fun a => key a ≠ k) = afterKey key r k l :=
    List.filter_eq_self.mpr fun a ha => by
      simpa using (ne_of_rel (r := r) (by simpa using (List.mem_filter.mp ha).2)).symm
  rw [h1, h2, h3, List.nil_append]

theorem insertIdx_length_append (a b : List α) (x : α) :
    (a ++ b).insertIdx a.length x = a ++ x :: b := by
  induction a with
  | nil => simp
  | cons c a ih => simpa using ih

/-- **Insertion at the position found**, when no entry has the key. -/
theorem insertIdx_lowerBound {l : List α} (hl : Sorted key r l) (x : α)
    (hx : ∀ y ∈ l, key y ≠ key x) :
    l.insertIdx (lowerBound (fun a => r (key a) (key x)) l) x = put key r x l := by
  have hs := sorted_split hl (key x)
  rw [atKey_eq_nil hx, List.nil_append] at hs
  rw [lowerBound_sorted hl]
  calc l.insertIdx (beforeKey key r (key x) l).length x
      = (beforeKey key r (key x) l ++ afterKey key r (key x) l).insertIdx
          (beforeKey key r (key x) l).length x := by rw [← hs]
    _ = put key r x l := insertIdx_length_append _ _ x

/-- **Overwriting at the position found**, when `y` has the key. -/
theorem set_lowerBound {l : List α} (hl : Sorted key r l) (x : α) {y : α} (hy : y ∈ l)
    (hk : key y = key x) :
    l.set (lowerBound (fun a => r (key a) (key x)) l) x = put key r x l := by
  have hs := sorted_split hl (key x)
  rw [show atKey key (key x) l = [y] by rw [← hk]; exact atKey_eq hl hy] at hs
  rw [lowerBound_sorted hl]
  calc l.set (beforeKey key r (key x) l).length x
      = (beforeKey key r (key x) l ++ ([y] ++ afterKey key r (key x) l)).set
          (beforeKey key r (key x) l).length x := by rw [← hs]
    _ = put key r x l := by
      rw [List.set_append_right _ _ (Nat.le_refl _), Nat.sub_self]
      rfl

/-- **Erasing at the position found**, when `y` has the key. -/
theorem eraseIdx_lowerBound {l : List α} (hl : Sorted key r l) {y : α} (hy : y ∈ l) :
    l.eraseIdx (lowerBound (fun a => r (key a) (key y)) l) = remove key (key y) l := by
  have hs := sorted_split hl (key y)
  rw [atKey_eq hl hy] at hs
  rw [lowerBound_sorted hl, remove_eq hl]
  calc l.eraseIdx (beforeKey key r (key y) l).length
      = (beforeKey key r (key y) l ++ ([y] ++ afterKey key r (key y) l)).eraseIdx
          (beforeKey key r (key y) l).length := by rw [← hs]
    _ = beforeKey key r (key y) l ++ afterKey key r (key y) l := by
      rw [List.eraseIdx_append_of_length_le (Nat.le_refl _), Nat.sub_self]
      rfl

end Table

end Foundation
