import LobMarketMaker.Foundation.Runs
import Mathlib.Data.List.Chain

/-!
# Counting along a list

* `breaks p l`: the places of `l` where `p` holds of an element and the next one;
* `breaks_concat`, `breaks_le_append`: more elements at the end;
* `breaks_add_length_le`: of a list without breaks, a selection has at most one break for each
  element left out.
-/

set_option autoImplicit false

namespace Foundation

variable {α : Type} (p : α → α → Bool)

/-- The number of neighbours that are in the relation. -/
def breaks : List α → ℕ
  | [] => 0
  | [_] => 0
  | a :: b :: l => (if p a b then 1 else 0) + breaks (b :: l)

theorem breaks_concat (l : List α) (b : α) :
    breaks p (l ++ [b]) = breaks p l + if l.getLast?.any (p · b) then 1 else 0 := by
  induction l with
  | nil => rfl
  | cons a l ih =>
    cases l with
    | nil => exact Nat.add_comm _ _
    | cons c l =>
      rw [List.getLast?_cons_cons, List.cons_append, List.cons_append, breaks, breaks, Nat.add_assoc]
      rw [List.cons_append] at ih
      rw [ih]

theorem breaks_le_append (l l' : List α) : breaks p l ≤ breaks p (l ++ l') := by
  induction l' using List.reverseRecOn with
  | nil => rw [List.append_nil]
  | append_singleton l' b ih =>
    rw [← List.append_assoc, breaks_concat]
    exact Nat.le_add_right_of_le ih

variable {p}

theorem breaks_cons_le (a c : α) (l : List α) : breaks p (a :: l) ≤ breaks p (c :: l) + 1 := by
  cases l with
  | nil => exact Nat.zero_le _
  | cons b l =>
    rw [breaks, breaks]
    split_ifs <;> omega

/-- **Selections break where something is left out.** -/
theorem breaks_add_length_le {es l : List α} (hes : es.IsChain fun a b => p a b = false)
    (h : l.Sublist es) : breaks p l + l.length ≤ es.length := by
  -- with the element before the selection, which may be the last one taken
  have hfrom : ∀ (es l : List α) (a : α), (a :: es).IsChain (fun a b => p a b = false) →
      l.Sublist es → breaks p (a :: l) + l.length ≤ es.length := by
    intro es
    induction es with
    | nil =>
      intro l a _ hl
      rw [List.sublist_nil.mp hl]
      exact Nat.le_refl _
    | cons c es ih =>
      intro l a hchain hl
      obtain ⟨hac, hrest⟩ := List.isChain_cons_cons.mp hchain
      cases hl with
      | cons _ hl =>
        have h₁ := ih l c hrest hl
        have h₂ := breaks_cons_le (p := p) a c l
        rw [List.length_cons]
        omega
      | cons_cons _ hl =>
        have h₁ := ih _ c hrest hl
        rw [breaks, hac, List.length_cons, List.length_cons]
        simp only [Bool.false_eq_true, if_false]
        omega
  induction h with
  | slnil => exact Nat.le_refl _
  | cons a _ ih =>
    have := ih hes.tail
    rw [List.length_cons]
    omega
  | cons_cons a hl =>
    have := hfrom _ _ a hes hl
    rw [List.length_cons, List.length_cons]
    omega

end Foundation
