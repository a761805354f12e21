import LobMarketMaker.Common.Types
import LobMarketMaker.Foundation.Binary64Rounding

/-!
# Prices in the machine's doubles

Ticks become dollars by a division, and dollars become ticks again by a product, a sum and a cast.
On the machine each of these is rounded, and nothing is lost.

* `fromDouble_approx`: dollars up to a few roundings give ticks within five eighths of the exact ones;
* `Payable`: prices from one tick to `2 ^ 40` ticks; `tally_add`: what shares cost at them;
* **`machine_round_trip`**: whole ticks come back.
-/

set_option autoImplicit false

namespace Lob

open Foundation Foundation.Binary64

namespace Price

variable {d : Float.Model} {s : Float.Model.UnpackedFloat.Sign} {k : ℕ} {x : ℚ}

theorem moderate_of_le (h : 1 / 10000 ≤ x) (h' : x ≤ 2 ^ 100) : Moderate x := by
  have hlow : (2 : ℚ) ^ (-999 : ℤ) ≤ 2 ^ (-14 : ℤ) := zpow_le_zpow_right₀ one_le_two (by norm_num)
  have hhigh : (2 : ℚ) ^ (100 : ℤ) ≤ 2 ^ (999 : ℤ) := zpow_le_zpow_right₀ one_le_two (by norm_num)
  exact ⟨hlow.trans (le_trans (by norm_num) h), le_trans (h'.trans (by norm_num)) hhigh⟩

theorem approx_half (h : Approx d s k x) : Approx (if (ofInt 0 : Float.Model) ≤ d then ofInt 1 / ofInt 2
    else -(ofInt 1 / ofInt 2)) s 1 (1 / 2) := by
  have hhalf : Approx (ofInt 1 / ofInt 2) .positive 1 (1 / 2) := by
    have h₁ := approx_ofInt .positive (n := 1) one_pos (by norm_num)
    have h₂ := approx_ofInt .positive (n := 2) two_pos (by norm_num)
    have hdiv := h₁.div h₂ (moderate_of_le (by norm_num) (by norm_num)) (by norm_num)
    push_cast at hdiv
    exact hdiv
  have hle : (ofInt 0 : Float.Model) ≤ d ↔ NonNeg d.unpack := le_iff_nonNeg
  obtain ⟨y, hy, -⟩ := h
  generalize d.unpack = f at hy hle
  cases hy with
  | mk s m e hm lo hi =>
    cases s with
    | positive =>
      rw [if_pos (hle.mpr trivial)]
      exact hhalf
    | negative =>
      rw [if_neg fun hc => hle.mp hc]
      exact hhalf.neg

theorem fromDouble_approx (h : Approx d s k x) (hi : ℕ) (hlow : 1 / 10000 ≤ x)
    (hhigh : x * 10000 ≤ hi) (hk : (hi + 1) * (k + 2) ≤ 2 ^ 47) :
    ∃ t : ℤ, fromDouble d = fromTicks (s.apply t) ∧ |(t : ℚ) - x * 10000| ≤ 5 / 8 := by
  have hksmall : k + 2 ≤ 2 ^ 47 := (Nat.le_mul_of_pos_left (k + 2) hi.succ_pos).trans hk
  have hhismall : hi + 1 ≤ 2 ^ 47 := (Nat.le_mul_of_pos_right (hi + 1) (k + 1).succ_pos).trans hk
  have hhi : (hi : ℚ) + 1 ≤ 2 ^ 47 := by exact_mod_cast hhismall
  have hmod : ∀ {v : ℚ}, 1 / 10000 ≤ v → v ≤ x * 10000 + 1 / 2 → Moderate v := fun hv hv' =>
    moderate_of_le hv (hv'.trans (by linarith))
  -- the three operations
  have hscale := approx_ofInt .positive (n := 10000) (by norm_num) (by norm_num)
  have hmul := h.mul hscale (hmod (by push_cast; linarith) (by push_cast; linarith)) (by omega)
  have hsign : s * .positive = s := by cases s <;> rfl
  rw [hsign] at hmul
  have hadd := hmul.add ((approx_half h).mono (Nat.le_add_left 1 (k + 0)))
    (hmod (by push_cast; linarith) (by push_cast; linarith)) (by omega)
  obtain ⟨y, hy, hcast⟩ := hadd.toInt
  push_cast at hy
  -- their error
  have hfactors : 4 * ((k + 0 + 1 + 1 : ℕ) : ℚ) * epsilon * (hi + 1) ≤ 1 / 8 := by
    have hk' : ((hi : ℚ) + 1) * (k + 2) ≤ 2 ^ 47 := by exact_mod_cast hk
    unfold epsilon
    push_cast
    linarith
  have hε := epsilon_nonneg
  have hnonneg : 0 ≤ 4 * ((k + 0 + 1 + 1 : ℕ) : ℚ) * epsilon := by positivity
  have hhi1 : (1 : ℚ) ≤ hi + 1 := by linarith [(Nat.cast_nonneg hi : (0 : ℚ) ≤ hi)]
  have hone : 4 * ((k + 0 + 1 + 1 : ℕ) : ℚ) * epsilon ≤ 1 := by
    have := mul_le_mul_of_nonneg_left hhi1 hnonneg
    linarith
  have herror := hy.abs_sub_le hε (by linarith) hone
  have hbound : (x * 10000 + 1 / 2) * (4 * ((k + 0 + 1 + 1 : ℕ) : ℚ) * epsilon) ≤ 1 / 8 := by
    have hle : x * 10000 + 1 / 2 ≤ hi + 1 := by linarith
    have := mul_le_mul_of_nonneg_right hle hnonneg
    linarith
  obtain ⟨h₁, h₂⟩ := abs_le.mp (herror.trans hbound)
  refine ⟨⌊y⌋, congrArg fromTicks (hcast (by linarith)), ?_⟩
  have hfloor := Int.floor_le y
  have hfloor' := Int.lt_floor_add_one y
  rw [abs_le]
  constructor <;> linarith

theorem approx_toDouble (s : Float.Model.UnpackedFloat.Sign) {n : ℕ} (h0 : 0 < n)
    (hn : n ≤ 2 ^ 53) : Approx (fromTicks (s.apply n)).toDouble s 1 (n / 10000) := by
  have hn0 : (1 : ℚ) ≤ n := by exact_mod_cast h0
  have hn' : (n : ℚ) ≤ 2 ^ 53 := by exact_mod_cast hn
  have hscale := approx_ofInt .positive (n := 10000) (by norm_num) (by norm_num)
  have hmod : Moderate ((n : ℚ) / (10000 : ℕ)) := by
    refine moderate_of_le ?_ ?_
    · push_cast
      linarith
    · push_cast
      linarith
  have hdiv := (approx_ofInt s h0 hn).div hscale hmod (by norm_num)
  have hsign : s / .positive = s := by cases s <;> rfl
  rw [hsign] at hdiv
  push_cast at hdiv
  exact hdiv

theorem approx_toDouble_of_pos {p : Price} (h0 : 0 < p.ticks) (h : p.ticks ≤ 2 ^ 53) :
    Approx p.toDouble .positive 1 (p.toDouble : ℚ) := by
  obtain ⟨n, hn⟩ : ∃ n : ℕ, p.ticks = n := ⟨p.ticks.toNat, by omega⟩
  have hp : p = fromTicks (n : ℤ) := Price.ext hn
  have happrox := approx_toDouble .positive (n := n) (by omega) (by omega)
  rw [toDouble_rat, hn, Int.cast_natCast, hp]
  exact happrox

/-- Prices from one tick to `2 ^ 40` ticks. -/
def Payable (p : Price) : Prop := 0 < p.ticks ∧ p.ticks ≤ 2 ^ 40

instance (p : Price) : Decidable p.Payable := by
  unfold Payable
  infer_instance

theorem Payable.bounds {p : Price} (hp : p.Payable) :
    (1 : ℚ) / 10000 ≤ p.toDouble ∧ (p.toDouble : ℚ) * 10000 ≤ 2 ^ 40 := by
  have h₁ : (1 : ℚ) ≤ p.ticks := by exact_mod_cast hp.1
  have h₂ : (p.ticks : ℚ) ≤ 2 ^ 40 := by exact_mod_cast hp.2
  rw [toDouble_rat]
  constructor <;> linarith

theorem Payable.approx {p : Price} (hp : p.Payable) :
    Approx p.toDouble .positive 1 (p.toDouble : ℚ) :=
  approx_toDouble_of_pos hp.1 (hp.2.trans (by norm_num))

/-- **What some shares cost**, added up. -/
theorem tally_add {c : ℚ} (h : Tally k d c) (hk : 2 ≤ k) (hk' : k ≤ 2 ^ 50) {n : ℤ} (h0 : 0 < n)
    (h53 : n ≤ 2 ^ 53) {p : Price} (hp : p.Payable) (hc : c + n * p.toDouble ≤ 2 ^ 100) :
    Tally (k + 1) (d + ofInt n * p.toDouble) (c + n * p.toDouble) := by
  obtain ⟨hlow, hhigh⟩ := hp.bounds
  have hn : (1 : ℚ) ≤ n := by exact_mod_cast h0
  have hdollars : 1 / 10000 ≤ (n : ℚ) * p.toDouble := by
    have := mul_le_mul hn hlow (by norm_num) (by linarith)
    linarith
  have hc0 := h.nonneg
  have hprod := (approx_ofInt_of_pos h0 h53).mul hp.approx (moderate_of_le hdollars (by linarith))
    (by norm_num)
  exact h.add (hprod.mono hk) (moderate_of_le (by linarith) hc) hk'

/-- **Nothing is lost.** A price of up to `2 ^ 45` ticks that is turned into a double and back on the
machine is the same price. -/
theorem machine_round_trip (p : Price) (h : |p.ticks| ≤ 2 ^ 45) :
    fromDouble (p.toDouble : Float.Model) = p := by
  rcases exists_sign p.ticks with h0 | ⟨s, n, hn0, hn⟩
  · have hzero : fromDouble ((fromTicks 0).toDouble : Float.Model) = fromTicks 0 := by decide +kernel
    exact (Price.ext h0 : p = fromTicks 0) ▸ hzero
  · have habs : |p.ticks| = n := by
      rw [hn]
      cases s
      · exact (abs_neg _).trans (Nat.abs_cast n)
      · exact Nat.abs_cast n
    have hn45 : n ≤ 2 ^ 45 := by
      rw [habs] at h
      exact_mod_cast h
    have hp : p = fromTicks (s.apply n) := Price.ext hn
    have hcast : (n : ℚ) / 10000 * 10000 = n := div_mul_cancel₀ _ (by norm_num)
    have hlow : (1 : ℚ) / 10000 ≤ n / 10000 :=
      div_le_div_of_nonneg_right (by exact_mod_cast hn0) (by norm_num)
    obtain ⟨t, ht, herror⟩ := fromDouble_approx (approx_toDouble s hn0 (by omega)) n hlow hcast.le
      (by omega)
    rw [hcast, abs_le] at herror
    have hlt : (t : ℚ) < n + 1 := by linarith [herror.2]
    have hgt : (n : ℚ) < t + 1 := by linarith [herror.1]
    have hlt' : t < n + 1 := by exact_mod_cast hlt
    have hgt' : (n : ℤ) < t + 1 := by exact_mod_cast hgt
    have htn : t = n := by omega
    rw [hp, ht, htn]

theorem machine_round_trip_cents :
    fromDouble ((fromTicks (-1000100)).toDouble : Float.Model) = fromTicks (-1000100) :=
  machine_round_trip _ (by decide)

end Price

end Lob
