import LobMarketMaker.Foundation.Runs
import Mathlib.Data.Nat.ModEq

/-!
# Bounded queues and their ring representation

* `Fifo`: a queue together with everything it accepted and returned; `Fifo.Step bound` accepts a
  value while fewer than `bound` are held and returns the oldest one;
* `Fifo.Accounted`: what was accepted is what was returned followed by what is held;
* `Window n buffer values lo hi`: the values with running indices `lo ≤ i < hi` stand in a ring of
  `n` slots, the `i`-th one in slot `i % n`. A window of at most `n` indices is overwritten by no
  write at an index outside it (`Window.set_outside`).
-/

set_option autoImplicit false

namespace Foundation

open Relation

variable {T : Type}

/-! ## The queue -/

/-- A queue with the history of its traffic. -/
structure Fifo (T : Type) where
  contents : List T := []
  accepted : List T := []
  returned : List T := []

namespace Fifo

variable {bound : ℕ} {q q' : Fifo T}

/-- A value enters while there is room, or the oldest one leaves. -/
inductive Step (bound : ℕ) : Fifo T → Fifo T → Prop
  | push {q : Fifo T} (v : T) (h : q.contents.length < bound) :
      Step bound q ⟨q.contents ++ [v], q.accepted ++ [v], q.returned⟩
  | pop {q : Fifo T} {v : T} {rest : List T} (h : q.contents = v :: rest) :
      Step bound q ⟨rest, q.accepted, q.returned ++ [v]⟩

/-- Nothing is lost, reordered or held beyond the bound. -/
structure Accounted (bound : ℕ) (q : Fifo T) : Prop where
  balance : q.accepted = q.returned ++ q.contents
  bounded : q.contents.length ≤ bound

theorem accounted_empty : Accounted bound ({} : Fifo T) := ⟨rfl, Nat.zero_le _⟩

theorem Step.accounted (h : Step bound q q') (hq : Accounted bound q) : Accounted bound q' := by
  cases h with
  | push v hlt =>
    refine ⟨?_, ?_⟩
    · rw [hq.balance, List.append_assoc]
    · rw [List.length_append]
      exact hlt
  | pop hc =>
    have hb := hq.bounded
    refine ⟨?_, ?_⟩
    · rw [hq.balance, hc, List.append_assoc]
      rfl
    · rw [hc, List.length_cons] at hb
      exact Nat.le_of_succ_le hb

theorem accounted_of_steps (h : ReflTransGen (Step bound) q q') (hq : Accounted bound q) :
    Accounted bound q' :=
  reflTransGen_invariant (fun _ _ hs => hs.accounted) h hq

theorem Accounted.isPrefix (h : Accounted bound q) : q.returned <+: q.accepted :=
  ⟨q.contents, h.balance.symm⟩

theorem Accounted.held (h : Accounted bound q) :
    q.accepted.length = q.returned.length + q.contents.length := by
  rw [h.balance, List.length_append]

end Fifo

/-! ## Ring indices -/

theorem eq_of_mod_eq {n a b : ℕ} (hab : a ≤ b) (hb : b < a + n) (h : a % n = b % n) : a = b := by
  have hd : n ∣ b - a := (Nat.modEq_iff_dvd' hab).mp h
  have hz : b - a = 0 := Nat.eq_zero_of_dvd_of_lt hd (by omega)
  omega

theorem succ_mod_eq_iff {n lo hi : ℕ} (hle : lo ≤ hi) (hlt : hi < lo + n) :
    (hi + 1) % n = lo % n ↔ hi + 1 = lo + n := by
  constructor
  · intro h
    by_contra hne
    have := eq_of_mod_eq (show lo ≤ hi + 1 by omega) (by omega) h.symm
    omega
  · intro h
    rw [h, Nat.add_mod_right]

section Window

/-- The values with index `lo ≤ i < hi` stand in the slots `i % n`. -/
def Window (n : ℕ) (buffer values : List T) (lo hi : ℕ) : Prop :=
  ∀ i, lo ≤ i → i < hi → buffer[i % n]? = values[i]?

variable {n : ℕ} {buffer values : List T} {lo hi : ℕ}

theorem Window.of_le (h : hi ≤ lo) : Window n buffer values lo hi := fun i h₁ h₂ =>
  absurd h₂ (by omega)

theorem Window.shrink (h : Window n buffer values lo hi) {lo' : ℕ} (hlo : lo ≤ lo') :
    Window n buffer values lo' hi := fun i h₁ h₂ => h i (hlo.trans h₁) h₂

theorem getElem?_set_mod {i k : ℕ} (hne : i ≠ k) (hik : i < k + n) (hki : k < i + n) (v : T) :
    (buffer.set (k % n) v)[i % n]? = buffer[i % n]? := by
  refine List.getElem?_set_ne fun h => hne ?_
  rcases Nat.le_total k i with hle | hle
  · exact (eq_of_mod_eq hle hik h).symm
  · exact eq_of_mod_eq hle hki h.symm

theorem Window.set_outside (h : Window n buffer values lo hi) {k : ℕ} (hk : hi ≤ k)
    (hn : k < lo + n) (v : T) : Window n (buffer.set (k % n) v) values lo hi := by
  intro i h₁ h₂
  rw [getElem?_set_mod (by omega) (by omega) (by omega)]
  exact h i h₁ h₂

theorem Window.set_before (h : Window n buffer values lo hi) {k : ℕ} (hk : k < lo)
    (hn : hi ≤ k + n) (v : T) : Window n (buffer.set (k % n) v) values lo hi := by
  intro i h₁ h₂
  rw [getElem?_set_mod (by omega) (by omega) (by omega)]
  exact h i h₁ h₂

theorem Window.concat (h : Window n buffer values lo values.length) {v : T}
    (hv : buffer[values.length % n]? = some v) :
    Window n buffer (values ++ [v]) lo (values.length + 1) := by
  intro i h₁ h₂
  rcases Nat.lt_succ_iff_lt_or_eq.mp h₂ with hlt | rfl
  · rw [List.getElem?_append_left hlt]
    exact h i h₁ hlt
  · rw [hv, List.getElem?_concat_length]

end Window

end Foundation
