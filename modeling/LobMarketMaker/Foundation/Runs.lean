import Mathlib.Data.Int.Notation
import Mathlib.Data.List.Induction
import Mathlib.Logic.Relation

/-!
# Runs of a deterministic machine

A machine is a function `step : σ → α → σ`; a run feeds it a list of inputs. The inputs carry
whatever the environment chooses, so a statement about every list is a statement about every
interleaving.

* `run_invariant`: what one step preserves, a run preserves;
* `run_lockstep`: so does a relation between two machines fed the same inputs;
* `run_history`: the same for a property of the state *and* of the inputs so far;
* `countP_le_of_steps`, `le_countP_of_steps`: a quantity that grows with each input of a kind counts
  them; `rank_le_of_steps`: a rank that each of them lowers runs out;
* `ForwardSimulation`: every step is matched by a sequence of abstract steps; `run`: so is every
  run, and (`invariant`) an abstract invariant holds of an abstract state related to every state
  reached.
-/

set_option autoImplicit false

namespace Foundation

open Relation

section Run

variable {σ α : Type} (step : σ → α → σ)

/-- The state after the inputs `l`. -/
def run (s : σ) (l : List α) : σ := l.foldl step s

theorem run_append (s : σ) (l l' : List α) : run step s (l ++ l') = run step (run step s l) l' :=
  List.foldl_append

theorem run_concat (s : σ) (l : List α) (a : α) :
    run step s (l ++ [a]) = step (run step s l) a := by
  rw [run_append]; rfl

/-- **Run lemma.** A property that every step preserves holds after every run. -/
theorem run_invariant {P : σ → Prop} (hstep : ∀ s a, P s → P (step s a)) {s : σ} (h0 : P s) :
    ∀ l : List α, P (run step s l) := by
  intro l
  induction l generalizing s with
  | nil => exact h0
  | cons a l ih => exact ih (hstep s a h0)

/-- **Two machines in lockstep.** A relation that every common input preserves holds after every
common run. -/
theorem run_lockstep {τ : Type} (step' : τ → α → τ) {R : σ → τ → Prop}
    (hstep : ∀ s t a, R s t → R (step s a) (step' t a)) {s : σ} {t : τ} (h0 : R s t) :
    ∀ l : List α, R (run step s l) (run step' t l) := by
  intro l
  induction l generalizing s t with
  | nil => exact h0
  | cons a l ih => exact ih (hstep s t a h0)

/-- **Run lemma with history.** The property may speak about the inputs seen so far. -/
theorem run_history {P : List α → σ → Prop} {s : σ} (h0 : P [] s)
    (hstep : ∀ pre s a, P pre s → P (pre ++ [a]) (step s a)) :
    ∀ l : List α, P l (run step s l) := by
  intro l
  induction l using List.reverseRecOn with
  | nil => exact h0
  | append_singleton l a ih =>
    rw [run_concat]
    exact hstep l _ a ih

section Counting

variable {I : σ → Prop} (p : α → Bool) (gain : σ → ℤ)

/-- **A quantity that grows with every input of a kind** bounds their number. -/
theorem countP_le_of_steps (hI : ∀ s a, I s → I (step s a))
    (hstep : ∀ s a, I s → gain s + (if p a then 1 else 0) ≤ gain (step s a)) {s : σ} (h0 : I s)
    (l : List α) : gain s + l.countP p ≤ gain (run step s l) := by
  induction l generalizing s with
  | nil => exact Int.le_of_eq (Int.add_zero _)
  | cons a l ih =>
    have h₁ := hstep s a h0
    have h₂ := ih (hI s a h0)
    have hrun : run step s (a :: l) = run step (step s a) l := rfl
    rw [hrun, List.countP_cons]
    split_ifs at h₁ ⊢ <;> omega

/-- **A quantity that grows only with inputs of a kind** is bounded by their number. -/
theorem le_countP_of_steps (hI : ∀ s a, I s → I (step s a))
    (hstep : ∀ s a, I s → gain (step s a) ≤ gain s + (if p a then 1 else 0)) {s : σ} (h0 : I s)
    (l : List α) : gain (run step s l) ≤ gain s + l.countP p := by
  induction l generalizing s with
  | nil => exact Int.le_of_eq (Int.add_zero _).symm
  | cons a l ih =>
    have h₁ := hstep s a h0
    have h₂ := ih (hI s a h0)
    have hrun : run step s (a :: l) = run step (step s a) l := rfl
    rw [hrun, List.countP_cons]
    split_ifs at h₁ ⊢ <;> omega

/-- **A rank that every input of a kind lowers** is zero after as many of them. -/
theorem rank_le_of_steps (rank : σ → ℕ) (hI : ∀ s a, I s → I (step s a))
    (hstep : ∀ s a, I s → rank (step s a) ≤ rank s - (if p a then 1 else 0)) {s : σ} (h0 : I s)
    (l : List α) : rank (run step s l) ≤ rank s - l.countP p := by
  induction l generalizing s with
  | nil => exact Nat.le_refl _
  | cons a l ih =>
    have h₁ := hstep s a h0
    have h₂ := ih (hI s a h0)
    have hrun : run step s (a :: l) = run step (step s a) l := rfl
    rw [hrun, List.countP_cons]
    split_ifs at h₁ ⊢ <;> omega

end Counting

end Run

section Simulation

variable {σ α β : Type}

theorem reflTransGen_invariant {Step : β → β → Prop} {I : β → Prop}
    (hI : ∀ b b', Step b b' → I b → I b') {b b' : β} (h : ReflTransGen Step b b') (hb : I b) :
    I b' := by
  induction h with
  | refl => exact hb
  | tail _ hs ih => exact hI _ _ hs ih

/-- `R` relates a machine to an abstract transition system: every step of the machine is matched
by finitely many abstract steps (none for a step the abstraction does not see). -/
def ForwardSimulation (step : σ → α → σ) (Step : β → β → Prop) (R : σ → β → Prop) : Prop :=
  ∀ s a b, R s b → ∃ b', ReflTransGen Step b b' ∧ R (step s a) b'

variable {step : σ → α → σ} {Step : β → β → Prop} {R : σ → β → Prop}

/-- **Every run is matched by an abstract run.** -/
theorem ForwardSimulation.run (h : ForwardSimulation step Step R) {s : σ} {b : β} (h0 : R s b) :
    ∀ l : List α, ∃ b', ReflTransGen Step b b' ∧ R (Foundation.run step s l) b' := by
  refine run_invariant step (P := fun s => ∃ b', ReflTransGen Step b b' ∧ R s b') ?_ ⟨b, .refl, h0⟩
  rintro s a ⟨b₁, hb₁, hR⟩
  obtain ⟨b₂, hb₂, hR'⟩ := h s a b₁ hR
  exact ⟨b₂, hb₁.trans hb₂, hR'⟩

/-- **Abstract invariants transfer.** -/
theorem ForwardSimulation.invariant (h : ForwardSimulation step Step R) {I : β → Prop}
    (hI : ∀ b b', Step b b' → I b → I b') {s : σ} {b : β} (h0 : R s b) (hb : I b) (l : List α) :
    ∃ b', R (Foundation.run step s l) b' ∧ I b' := by
  obtain ⟨b', hb', hR⟩ := h.run h0 l
  exact ⟨b', hR, reflTransGen_invariant hI hb' hb⟩

end Simulation

end Foundation
