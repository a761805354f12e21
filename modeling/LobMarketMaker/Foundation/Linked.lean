import Mathlib.Data.List.Range
import Mathlib.Data.List.Nodup
import Mathlib.Logic.Function.Basic

/-!
# Intrusive singly linked lists

Nodes carry the link to the next one themselves: `next i` is the link of node `i`, `none` the null
pointer.

* `Linked next head l`: following the links from `head` visits exactly `l` and then ends;
* `Linked.congr`: only the links of the visited nodes matter; `Linked.push`: linking a further node
  in at the head;
* `Linked.unique`, **`Linked.nodup`**: the links determine the visited nodes, so a walk that ends
  visits no node twice;
* `linked_range'`: a row of nodes each linked to its right neighbour.
-/

set_option autoImplicit false

namespace Foundation

/-- Following `next` from `head` visits `l` and ends. -/
def Linked {α : Type} (next : α → Option α) : Option α → List α → Prop
  | head, [] => head = none
  | head, i :: l => head = some i ∧ Linked next (next i) l

namespace Linked

variable {α : Type} {next next' : α → Option α} {head : Option α} {i : α} {l l' : List α}

theorem congr (h : Linked next head l) (heq : ∀ i ∈ l, next' i = next i) :
    Linked next' head l := by
  induction l generalizing head with
  | nil => exact h
  | cons i l ih =>
    refine ⟨h.1, ?_⟩
    rw [heq i List.mem_cons_self]
    exact ih h.2 fun j hj => heq j (List.mem_cons_of_mem i hj)

theorem push (h : Linked next head l) (hi : i ∉ l) (hnew : next' i = head)
    (heq : ∀ j, j ≠ i → next' j = next j) : Linked next' (some i) (i :: l) := by
  refine ⟨rfl, ?_⟩
  rw [hnew]
  exact h.congr fun j hj => heq j (ne_of_mem_of_not_mem hj hi)

theorem unique (h : Linked next head l) (h' : Linked next head l') : l = l' := by
  induction l generalizing head l' with
  | nil =>
    cases l' with
    | nil => rfl
    | cons j l' => exact absurd (h'.1.symm.trans h) (Option.some_ne_none j)
  | cons i l ih =>
    cases l' with
    | nil => exact absurd (h.1.symm.trans h') (Option.some_ne_none i)
    | cons j l' =>
      obtain rfl : i = j := Option.some.inj (h.1.symm.trans h'.1)
      rw [ih h.2 h'.2]

theorem of_append {pre : List α} (h : Linked next head (pre ++ i :: l)) :
    Linked next (some i) (i :: l) := by
  induction pre generalizing head with
  | nil => exact ⟨rfl, h.2⟩
  | cons j pre ih => exact ih h.2

/-- **A walk that ends is acyclic.** -/
theorem nodup (h : Linked next head l) : l.Nodup := by
  induction l generalizing head with
  | nil => exact List.nodup_nil
  | cons i l ih =>
    refine List.nodup_cons.mpr ⟨fun hi => ?_, ih h.2⟩
    -- a second visit of `i` would be followed by all that follows the first
    obtain ⟨pre, post, rfl⟩ := List.append_of_mem hi
    have hfirst : Linked next (some i) (i :: (pre ++ i :: post)) := ⟨rfl, h.2⟩
    have heq : i :: post = i :: (pre ++ i :: post) := (of_append h.2).unique hfirst
    have hlen := congrArg List.length heq
    simp only [List.length_cons, List.length_append] at hlen
    omega

end Linked

theorem linked_range' {next : ℕ → Option ℕ} {n : ℕ}
    (h : ∀ i < n, next i = if i + 1 < n then some (i + 1) else none) (k i : ℕ) (hk : i + k = n) :
    Linked next (if 0 < k then some i else none) (List.range' i k) := by
  induction k generalizing i with
  | zero => rfl
  | succ k ih =>
    have hhead : (if 0 < k then some (i + 1) else none) = next i := by
      rw [h i (by omega)]
      exact if_congr (by omega) rfl rfl
    rw [List.range'_succ, if_pos (Nat.succ_pos k)]
    refine ⟨rfl, ?_⟩
    rw [← hhead]
    exact ih (i + 1) (by omega)

end Foundation
