import LobMarketMaker.Portfolio.MachineFills
import LobMarketMaker.Portfolio.TotalPnl

/-!
# The portfolio in the machine's doubles

The machine's portfolio next to the one of exact arithmetic, fed the same fills and marks. The errors
of its dollars are counted from fill to fill.

* `Shadows P n m s`: the machine's state `m` after `n` fills against the exact one;
* `Shadows.avg_extends`, `Shadows.avg_opposes`, `Shadows.realized_opposes`: the parts of a fill;
  `Shadows.onFill`: one fill; `Shadows.mark`: one mark at the mid price;
* `shadows_noticed`: a run;
* **`machine_accounting`**.
-/

set_option autoImplicit false

namespace Lob

open Foundation Foundation.Binary64

namespace Portfolio

variable {f : Fill} {P : ℚ} {n : ℕ}

/-! ## The two portfolios -/

/-- After `n` fills at prices up to `P` the machine's state has the shares of the exact one, and its
dollars up to errors that grow with `n`. -/
structure Shadows (P : ℚ) (n : ℕ) (m : PositionState Float.Model) (s : PositionState ℚ) : Prop where
  position : m.position = s.position
  volume : m.totalVolumeTraded = s.totalVolumeTraded
  position_le : |s.position| ≤ s.totalVolumeTraded
  flat : s.position = 0 → (∃ t, m.avgEntryPrice.unpack = .zero t) ∧ s.avgEntryPrice = 0
  avg : s.position ≠ 0 → 0 < n ∧ Approx m.avgEntryPrice .positive (4 * n) s.avgEntryPrice ∧
    1 / 10000 ≤ s.avgEntryPrice ∧ s.avgEntryPrice ≤ P
  turnover : Tally (n + 2) m.turnover s.turnover
  turnover_le : s.turnover ≤ s.totalVolumeTraded * P
  realized : Near m.realizedPnl s.realizedPnl
    (s.totalVolumeTraded * P * ((17 * n + 7) * epsilon))
  realized_le : |s.realizedPnl| ≤ s.totalVolumeTraded * P
  unrealized : Near m.unrealizedPnl s.unrealizedPnl
    (s.totalVolumeTraded * P * ((16 * n + 14) * epsilon))
  total : Near m.totalPnl s.totalPnl (s.totalVolumeTraded * P * ((33 * n + 23) * epsilon))

/-- What is asked of a fill. -/
structure Ordinary (P : ℚ) (f : Fill) : Prop where
  quantity : 0 < f.quantity
  payable : f.price.Payable
  price : (f.price.toDouble : ℚ) ≤ P

/-- Bounds of volume, price and number of fills. -/
structure Small (P : ℚ) (V : ℤ) (n : ℕ) : Prop where
  price_nonneg : 0 ≤ P
  price : P ≤ 2 ^ 40
  volume : V ≤ 2 ^ 53
  fills : n ≤ 2 ^ 40

variable {p : Portfolio Float.Model} {q : Portfolio ℚ} {m : PositionState Float.Model}
  {s : PositionState ℚ}

theorem Shadows.volume_nonneg (h : Shadows P n m s) : 0 ≤ s.totalVolumeTraded :=
  (abs_nonneg _).trans h.position_le

theorem Shadows.volume_onFill {f : Fill} (h : Shadows P n m q.state) (hf : 0 < f.quantity)
    (hV : q.state.totalVolumeTraded + f.quantity ≤ 2 ^ 53) :
    (q.onFill f.side f.price f.quantity).state.totalVolumeTraded =
      q.state.totalVolumeTraded + f.quantity := by
  have h0 := h.volume_nonneg
  rw [onFill_volume]
  exact wrapI64_of_inI64 ⟨by lia, by lia⟩

theorem bound_mono {V V' b b' : ℚ} (hV : 0 ≤ V) (hV' : V ≤ V') (hP : 0 ≤ P) (hb : 0 ≤ b)
    (hb' : b ≤ b') : V * P * (b * epsilon) ≤ V' * P * (b' * epsilon) := by
  have hε := epsilon_nonneg
  exact mul_le_mul (mul_le_mul_of_nonneg_right hV' hP) (mul_le_mul_of_nonneg_right hb' hε)
    (mul_nonneg hb hε) (mul_nonneg (hV.trans hV') hP)

theorem small_factor {V : ℤ} (h : Small P V n) : (64 * (n : ℚ) + 64) * epsilon ≤ 1 := by
  have hn : (n : ℚ) ≤ 2 ^ 40 := by exact_mod_cast h.fills
  unfold epsilon
  linarith

theorem Shadows.avg_bounds (h : Shadows P n m s) (hP : 0 ≤ P) :
    0 ≤ s.avgEntryPrice ∧ s.avgEntryPrice ≤ P := by
  by_cases h0 : s.position = 0
  · rw [(h.flat h0).2]
    exact ⟨le_refl _, hP⟩
  · obtain ⟨-, -, hlow, hhigh⟩ := h.avg h0
    exact ⟨by linarith, hhigh⟩

theorem Shadows.avg_near (h : Shadows P n m s) (hP : 0 ≤ P)
    (hn : (64 * (n : ℚ) + 64) * epsilon ≤ 1) :
    Near m.avgEntryPrice s.avgEntryPrice (P * (16 * n * epsilon)) := by
  have hε := epsilon_nonneg
  have hnε : 0 ≤ (n : ℚ) * epsilon := mul_nonneg (Nat.cast_nonneg n) hε
  by_cases h0 : s.position = 0
  · obtain ⟨⟨t, ht⟩, hzero⟩ := h.flat h0
    rw [hzero]
    refine ⟨0, .zero ht, grid_zero, ?_⟩
    rw [sub_zero, abs_zero]
    positivity
  · obtain ⟨-, havg, hlow, hhigh⟩ := h.avg h0
    exact (havg.near (by linarith) (by push_cast; linarith)).mono
      ((mul_le_mul_of_nonneg_right hhigh (by positivity)).trans_eq (by push_cast; ring))

theorem shadows_new : Shadows P 0 {} {} where
  position := rfl
  volume := rfl
  position_le := le_refl _
  flat _ := ⟨⟨.positive, rfl⟩, rfl⟩
  avg h := absurd rfl h
  turnover := .zero (s := .positive) rfl
  turnover_le := by
    show (0 : ℚ) ≤ (0 : ℤ) * P
    rw [Int.cast_zero, zero_mul]
  realized := ⟨0, value_zero, grid_zero, by
    show |(0 : ℚ) - 0| ≤ (0 : ℤ) * P * _
    norm_num⟩
  realized_le := by
    show |(0 : ℚ)| ≤ (0 : ℤ) * P
    rw [Int.cast_zero, zero_mul, abs_zero]
  unrealized := ⟨0, value_zero, grid_zero, by
    show |(0 : ℚ) - 0| ≤ (0 : ℤ) * P * _
    norm_num⟩
  total := ⟨0, value_zero, grid_zero, by
    show |(0 : ℚ) - 0| ≤ (0 : ℤ) * P * _
    norm_num⟩

/-! ## One fill -/

section OneFill

variable (h : Shadows P n p.state q.state) (hf : Ordinary P f)
  (hsmall : Small P (q.state.totalVolumeTraded + f.quantity) n)
include h hf hsmall

omit hf in
theorem Shadows.quantity_le : f.quantity ≤ 2 ^ 53 := by
  have := h.volume_nonneg
  have := hsmall.volume
  lia

theorem Shadows.position_le_two_pow : |p.state.position| ≤ 2 ^ 53 := by
  have := h.position_le
  have := hf.quantity
  have := hsmall.volume
  rw [h.position]
  lia

omit hsmall in
theorem Shadows.next_le :
    |q.state.position + f.shares| ≤ q.state.totalVolumeTraded + f.quantity :=
  (abs_add_le _ _).trans (add_le_add h.position_le (abs_shares hf.quantity).le)

theorem Shadows.next_position : (p.onFill f.side f.price f.quantity).state.position =
    q.state.position + f.shares := by
  have hsum := (h.next_le hf).trans hsmall.volume
  rw [onFill_position, movePosition_exact hf.quantity (h.quantity_le hsmall)
    (h.position_le_two_pow hf hsmall) (h.position.symm ▸ hsum), h.position]

/-- **The average after a fill that opens or extends.** -/
theorem Shadows.avg_extends (hext : f.Extends q.state.position) :
    let a := (q.onFill f.side f.price f.quantity).state.avgEntryPrice
    Approx (p.onFill f.side f.price f.quantity).state.avgEntryPrice .positive (4 * (n + 1)) a ∧
      1 / 10000 ≤ a ∧ a ≤ P := by
  intro a
  have h53 := h.quantity_le hsmall
  have hq : |f.quantity| ≤ 2 ^ 53 := (abs_of_pos hf.quantity).trans_le h53
  obtain ⟨-, havg, -⟩ := onFill_extends hf.quantity hext
  have hext' : f.Extends p.state.position := h.position.symm ▸ hext
  have hmachine := (onFill_of_extends ((extends_iff_machine hq).mp hext')).1
  rw [hmachine]
  by_cases h0 : q.state.position = 0
  · obtain ⟨⟨t, ht⟩, hzero⟩ := h.flat h0
    have hne : (f.shares : ℚ) ≠ 0 := by exact_mod_cast Fill.shares_ne_zero hf.quantity
    have ha : a = f.price.toDouble := by
      refine havg.trans ?_
      rw [h0, Int.cast_zero, zero_mul, zero_add, zero_add, mul_div_cancel_left₀ _ hne]
    rw [ha]
    exact ⟨(opens_approx hf.quantity h53 hf.payable (h.position.trans h0) ht).mono (by omega),
      hf.payable.bounds.1, hf.price⟩
  · obtain ⟨hn, hold, hlow, hhigh⟩ := h.avg h0
    have hsame : 0 < q.state.position ↔ 0 < f.shares := hext.resolve_left h0
    have hshares := Fill.shares_ne_zero hf.quantity
    have hsign : (0 : ℚ) ≤ q.state.position ∧ (0 : ℚ) < f.shares ∨
        (q.state.position : ℚ) ≤ 0 ∧ (f.shares : ℚ) < 0 := by
      norm_cast
      lia
    obtain ⟨hge, hle⟩ := weighted_between hsign q.state.avgEntryPrice f.price.toDouble
    have hfills := hsmall.fills
    have hsum : |p.state.position + f.shares| ≤ 2 ^ 53 :=
      h.position.symm ▸ (h.next_le hf).trans hsmall.volume
    have hnew := extends_approx hf.quantity h53 hf.payable (h.position.symm ▸ h0)
      (h.position.symm ▸ hsame) hsum (by omega) (by omega) hold hlow (hhigh.trans hsmall.price)
    rw [h.position, ← havg] at hnew
    rw [← havg] at hge hle
    exact ⟨hnew, (le_min hlow hf.payable.bounds.1).trans hge, hle.trans (max_le hhigh hf.price)⟩

/-- **The average after a fill on the other side.** -/
theorem Shadows.avg_opposes (hopp : f.Opposes q.state.position) :
    let m' := (p.onFill f.side f.price f.quantity).state
    let s' := (q.onFill f.side f.price f.quantity).state
    (s'.position = 0 → (∃ t, m'.avgEntryPrice.unpack = .zero t) ∧ s'.avgEntryPrice = 0) ∧
      (s'.position ≠ 0 → Approx m'.avgEntryPrice .positive (4 * (n + 1)) s'.avgEntryPrice ∧
        1 / 10000 ≤ s'.avgEntryPrice ∧ s'.avgEntryPrice ≤ P) := by
  intro m' s'
  have h53 := h.quantity_le hsmall
  have hq : |f.quantity| ≤ 2 ^ 53 := (abs_of_pos hf.quantity).trans_le h53
  have hopp' : f.Opposes p.state.position := h.position.symm ▸ hopp
  have h0 : q.state.position ≠ 0 := by
    unfold Fill.Opposes at hopp
    lia
  have hnot : ¬ f.Extends p.state.position := by
    unfold Fill.Opposes at hopp'
    unfold Fill.Extends
    lia
  have hpath := mt (extends_iff_machine hq).mpr hnot
  obtain ⟨hposition, havg, -⟩ := onFill_opposes hopp
  have hmoved : (reduce p.state (signedFill f.side f.quantity) f.price.toDouble).position =
      p.state.position + f.shares := by
    rw [← (h.position ▸ h.next_position hf hsmall :
      m'.position = p.state.position + f.shares)]
    show _ = (p.onFill f.side f.price f.quantity).state.position
    unfold onFill
    dsimp only
    rw [if_neg hpath]
    rfl
  have hmachine : m'.avgEntryPrice = if q.state.position + f.shares = 0 then ofInt 0
      else if |q.state.position| ≤ |f.shares| then f.price.toDouble
      else p.state.avgEntryPrice := by
    rw [← h.position, ← PositionState.reduce_avg_of_position hmoved hopp']
    exact (onFill_of_not_extends hpath).1
  have hs' : s'.position = q.state.position + f.shares := hposition
  have ha' : s'.avgEntryPrice = _ := havg
  rw [hs', ha', hmachine]
  refine ⟨fun hzero => ?_, fun hne => ?_⟩
  · rw [if_pos hzero, if_pos hzero]
    exact ⟨⟨.positive, rfl⟩, rfl⟩
  · rw [if_neg hne, if_neg hne]
    by_cases hle : |q.state.position| ≤ |f.shares|
    · rw [if_pos hle, if_pos hle]
      exact ⟨hf.payable.approx.mono (by omega), hf.payable.bounds.1, hf.price⟩
    · obtain ⟨-, hold, hlow, hhigh⟩ := h.avg h0
      rw [if_neg hle, if_neg hle]
      exact ⟨hold.mono (by omega), hlow, hhigh⟩

/-- **What a fill on the other side realizes.** -/
theorem Shadows.realized_opposes (hopp : f.Opposes q.state.position) :
    let s' := (q.onFill f.side f.price f.quantity).state
    Near (p.onFill f.side f.price f.quantity).state.realizedPnl s'.realizedPnl
        ((q.state.totalVolumeTraded + f.quantity : ℤ) * P * ((17 * (n + 1 : ℕ) + 7) * epsilon)) ∧
      |s'.realizedPnl| ≤ (q.state.totalVolumeTraded + f.quantity : ℤ) * P := by
  intro s'
  have h53 := h.quantity_le hsmall
  have hq : |f.quantity| ≤ 2 ^ 53 := (abs_of_pos hf.quantity).trans_le h53
  have hopp' : f.Opposes p.state.position := h.position.symm ▸ hopp
  have hnot : ¬ f.Extends p.state.position := by
    unfold Fill.Opposes at hopp'
    unfold Fill.Extends
    lia
  obtain ⟨-, -, hrealized⟩ := onFill_opposes hopp
  have hmachine := (onFill_of_not_extends (mt (extends_iff_machine hq).mpr hnot)).2
  obtain ⟨hlow', -⟩ := hf.payable.bounds
  have hprice := hf.price
  have hε := epsilon_nonneg
  have hP := hsmall.price_nonneg
  obtain ⟨hlow, hhigh⟩ := h.avg_bounds hP
  have hfactor := small_factor hsmall
  have hV : (0 : ℚ) ≤ q.state.totalVolumeTraded := by exact_mod_cast h.volume_nonneg
  have hQ : (0 : ℚ) ≤ f.quantity := by exact_mod_cast hf.quantity.le
  have hV53 : ((q.state.totalVolumeTraded : ℚ) + f.quantity) ≤ 2 ^ 53 := by
    exact_mod_cast hsmall.volume
  have hn : (0 : ℚ) ≤ n := Nat.cast_nonneg n
  have hnε := mul_nonneg hn hε
  -- the errors of the two prices
  have hnear : Near f.price.toDouble (f.price.toDouble : ℚ) (P * (4 * epsilon)) :=
    (hf.payable.approx.near (by linarith) (by push_cast; linarith)).mono
      ((mul_le_mul_of_nonneg_right hprice (by positivity)).trans_eq (by push_cast; ring))
  have hnear' := h.avg_near hP hfactor
  have hdiff : |(f.price.toDouble : ℚ) - q.state.avgEntryPrice| ≤ P := by
    rw [abs_le]
    constructor <;> linarith
  -- what is realized is at most the shares times the highest price
  have hclosed : |(f.closed q.state.position : ℚ)| ≤ f.quantity := by
    have hle : |f.closed q.state.position| ≤ |f.shares| := by
      unfold Fill.closed
      split_ifs with hle
      · exact hle
      · exact (abs_neg _).le
    exact_mod_cast hle.trans_eq (abs_shares hf.quantity)
  have hterm : |(f.closed q.state.position : ℚ) *
      ((f.price.toDouble : ℚ) - q.state.avgEntryPrice)| ≤ f.quantity * P := by
    rw [abs_mul]
    exact mul_le_mul hclosed hdiff (abs_nonneg _) hQ
  have hbound : |q.state.realizedPnl + f.closed q.state.position *
      ((f.price.toDouble : ℚ) - q.state.avgEntryPrice)| ≤
        (q.state.totalVolumeTraded + f.quantity : ℤ) * P := by
    push_cast
    rw [add_mul]
    exact (abs_add_le _ _).trans (add_le_add h.realized_le hterm)
  have hs' : s'.realizedPnl = _ := hrealized
  rw [hs', hmachine]
  refine ⟨?_, hbound⟩
  have hVP := mul_nonneg hV hP
  have hQP := mul_nonneg hQ hP
  have hu := mul_le_mul_of_nonneg_left (by linarith : (16 * n + 6) * epsilon ≤ 1) hP
  have hv := mul_le_mul_of_nonneg_left (by linarith : (17 * n + 7) * epsilon ≤ 1) hVP
  have hv' := mul_le_mul_of_nonneg_left (by linarith : (16 * n + 7) * epsilon ≤ 1) hQP
  have hlarge : ((q.state.totalVolumeTraded + f.quantity : ℤ) : ℚ) * P ≤ 2 ^ 249 := by
    push_cast
    exact (mul_le_mul hV53 hsmall.price hP (by norm_num)).trans (by norm_num)
  have hnext := realized_near (h.position.symm ▸ hopp) hf.quantity h53
    (h.position_le_two_pow hf hsmall) h.realized hnear hnear' hdiff hsmall.price (by linarith)
    (h.position.symm ▸ hbound) (by push_cast; linarith) hlarge
  rw [h.position] at hnext
  have hVε := mul_nonneg hVP hε
  have hQε := mul_nonneg hQP hε
  have hQnε := mul_nonneg hQP hnε
  unfold reduce
  dsimp only
  rw [h.position]
  refine hnext.mono ?_
  push_cast
  linarith

/-- **Step lemma.** One more fill. -/
theorem Shadows.onFill : Shadows P (n + 1) (p.onFill f.side f.price f.quantity).state
    (q.onFill f.side f.price f.quantity).state := by
  have h53 := h.quantity_le hsmall
  have hq : |f.quantity| ≤ 2 ^ 53 := (abs_of_pos hf.quantity).trans_le h53
  have hposition := h.next_position hf hsmall
  have hle := h.next_le hf
  have hP := hsmall.price_nonneg
  have hV : (0 : ℚ) ≤ q.state.totalVolumeTraded := by exact_mod_cast h.volume_nonneg
  have hQ : (0 : ℚ) ≤ f.quantity := by exact_mod_cast hf.quantity.le
  have hV53 : ((q.state.totalVolumeTraded : ℚ) + f.quantity) ≤ 2 ^ 53 := by
    exact_mod_cast hsmall.volume
  have hV' : (q.state.totalVolumeTraded : ℚ) ≤ (q.state.totalVolumeTraded + f.quantity : ℤ) := by
    push_cast
    linarith
  have hcast : ((n + 1 : ℕ) : ℚ) = n + 1 := by push_cast; rfl
  have hn : (0 : ℚ) ≤ n := Nat.cast_nonneg n
  -- the dollars that changed hands
  have hcost : (f.quantity : ℚ) * f.price.toDouble ≤ f.quantity * P :=
    mul_le_mul_of_nonneg_left hf.price hQ
  have hturnover_le : q.state.turnover + f.quantity * f.price.toDouble ≤
      (q.state.totalVolumeTraded + f.quantity : ℤ) * P := by
    have := h.turnover_le
    push_cast
    linarith
  have hturnover : Tally (n + 3) (p.onFill f.side f.price f.quantity).state.turnover
      (q.onFill f.side f.price f.quantity).state.turnover := by
    have hlarge : ((q.state.totalVolumeTraded + f.quantity : ℤ) : ℚ) * P ≤ 2 ^ 100 := by
      push_cast
      exact (mul_le_mul hV53 hsmall.price hP (by norm_num)).trans (by norm_num)
    have hfills := hsmall.fills
    rw [onFill_turnover, onFill_turnover]
    exact Price.tally_add h.turnover (by omega) (by omega) hf.quantity h53 hf.payable
      (hturnover_le.trans hlarge)
  -- the position, the average and what was realized, on either path
  obtain ⟨hsum, hflat, havg, hrealized, hrealized_le⟩ :
      (q.onFill f.side f.price f.quantity).state.position = q.state.position + f.shares ∧
      ((q.onFill f.side f.price f.quantity).state.position = 0 →
        (∃ t, (p.onFill f.side f.price f.quantity).state.avgEntryPrice.unpack = .zero t) ∧
          (q.onFill f.side f.price f.quantity).state.avgEntryPrice = 0) ∧
      ((q.onFill f.side f.price f.quantity).state.position ≠ 0 →
        Approx (p.onFill f.side f.price f.quantity).state.avgEntryPrice .positive (4 * (n + 1))
            (q.onFill f.side f.price f.quantity).state.avgEntryPrice ∧
          1 / 10000 ≤ (q.onFill f.side f.price f.quantity).state.avgEntryPrice ∧
          (q.onFill f.side f.price f.quantity).state.avgEntryPrice ≤ P) ∧
      Near (p.onFill f.side f.price f.quantity).state.realizedPnl
        (q.onFill f.side f.price f.quantity).state.realizedPnl
        ((q.state.totalVolumeTraded + f.quantity : ℤ) * P * ((17 * (n + 1 : ℕ) + 7) * epsilon)) ∧
      |(q.onFill f.side f.price f.quantity).state.realizedPnl| ≤
        (q.state.totalVolumeTraded + f.quantity : ℤ) * P := by
    rcases Fill.extends_or_opposes hf.quantity q.state.position with hext | hopp
    · obtain ⟨hsum, -, hrealized⟩ := onFill_extends hf.quantity hext
      have hext' : f.Extends p.state.position := h.position.symm ▸ hext
      have hmachine := (onFill_of_extends ((extends_iff_machine hq).mp hext')).2
      have hne := Fill.position_ne_zero_of_extends hf.quantity hext
      refine ⟨hsum, fun h0 => absurd (hsum.symm.trans h0) hne, fun _ => h.avg_extends hf hsmall hext,
        ?_, ?_⟩
      · rw [hmachine, hrealized]
        refine h.realized.mono (bound_mono hV hV' hP (by positivity) ?_)
        rw [hcast]
        linarith
      · rw [hrealized]
        exact h.realized_le.trans (mul_le_mul_of_nonneg_right hV' hP)
    · obtain ⟨hflat, havg⟩ := h.avg_opposes hf hsmall hopp
      obtain ⟨hrealized, hrealized_le⟩ := h.realized_opposes hf hsmall hopp
      exact ⟨(onFill_opposes hopp).1, hflat, havg, hrealized, hrealized_le⟩
  have hvolume : (q.onFill f.side f.price f.quantity).state.totalVolumeTraded =
      q.state.totalVolumeTraded + f.quantity := h.volume_onFill hf.quantity hsmall.volume
  exact {
    position := hposition.trans hsum.symm
    volume := by rw [onFill_volume, h.volume, ← onFill_volume]
    position_le := by
      rw [hsum, hvolume]
      exact hle
    flat := hflat
    avg := fun h0 => ⟨n.succ_pos, havg h0⟩
    turnover := hturnover
    turnover_le := by
      rw [hvolume, onFill_turnover]
      exact hturnover_le
    realized := by
      rw [hvolume]
      exact hrealized
    realized_le := by
      rw [hvolume]
      exact hrealized_le
    unrealized := by
      rw [hvolume, onFill_unrealized, onFill_unrealized]
      refine h.unrealized.mono (bound_mono hV hV' hP (by positivity) ?_)
      rw [hcast]
      linarith
    total := by
      rw [hvolume, onFill_total, onFill_total]
      refine h.total.mono (bound_mono hV hV' hP (by positivity) ?_)
      rw [hcast]
      linarith }

end OneFill

/-! ## One mark -/

/-- The mid price, as the book computes it. -/
def mid {F : Type} [Double F] (bid ask : Price) : F := (bid.toDouble + ask.toDouble) / ofInt 2

theorem mid_near {bid ask : Price} (hbid : bid.Payable) (hask : ask.Payable)
    (hbidP : (bid.toDouble : ℚ) ≤ P) (haskP : (ask.toDouble : ℚ) ≤ P) :
    Near (mid bid ask) (mid bid ask : ℚ) (P * (12 * epsilon)) ∧
      0 ≤ (mid bid ask : ℚ) ∧ (mid bid ask : ℚ) ≤ P := by
  have hb := hbid.bounds
  have ha := hask.bounds
  have hmid : (mid bid ask : ℚ) = (bid.toDouble + ask.toDouble) / (2 : ℤ) := rfl
  have hlow : 1 / 10000 ≤ ((bid.toDouble : ℚ) + ask.toDouble) / (2 : ℤ) := by
    push_cast
    linarith
  have hsum := hbid.approx.add hask.approx (Price.moderate_of_le (by linarith) (by linarith))
    (by norm_num)
  have htwo := approx_ofInt_of_pos (i := 2) two_pos (by norm_num)
  have hdiv := hsum.div htwo (Price.moderate_of_le hlow (by push_cast; linarith)) (by norm_num)
  rw [sign_div_self, ← hmid] at hdiv
  rw [← hmid] at hlow
  have hhigh : (mid bid ask : ℚ) ≤ P := by
    rw [hmid]
    push_cast
    linarith
  refine ⟨(hdiv.near (by linarith) ?_).mono ?_, by linarith, hhigh⟩
  · unfold epsilon
    norm_num
  · have hε : 0 ≤ 12 * epsilon := mul_nonneg (by norm_num) epsilon_nonneg
    exact (le_of_eq (by push_cast; ring)).trans (mul_le_mul_of_nonneg_right hhigh hε)

/-- **Step lemma.** One more mark. -/
theorem Shadows.mark (h : Shadows P n p.state q.state)
    (hsmall : Small P q.state.totalVolumeTraded n) {bid ask : Price} (hbid : bid.Payable)
    (hask : ask.Payable) (hbidP : (bid.toDouble : ℚ) ≤ P) (haskP : (ask.toDouble : ℚ) ≤ P) :
    Shadows P n (p.markToMarket (mid bid ask)).state (q.markToMarket (mid bid ask)).state := by
  have hP := hsmall.price_nonneg
  have hfactor := small_factor hsmall
  have hε := epsilon_nonneg
  have hnε : 0 ≤ (n : ℚ) * epsilon := mul_nonneg (Nat.cast_nonneg n) hε
  have hV : (0 : ℚ) ≤ q.state.totalVolumeTraded := by exact_mod_cast h.volume_nonneg
  have hV53 : (q.state.totalVolumeTraded : ℚ) ≤ 2 ^ 53 := by exact_mod_cast hsmall.volume
  have hVP := mul_nonneg hV hP
  have hlarge : (q.state.totalVolumeTraded : ℚ) * P ≤ 2 ^ 100 :=
    (mul_le_mul hV53 hsmall.price hP (by norm_num)).trans (by norm_num)
  obtain ⟨hnear, hmid, hmid'⟩ := mid_near hbid hask hbidP haskP
  obtain ⟨havg, havg'⟩ := h.avg_bounds hP
  have hdiff : |(mid bid ask : ℚ) - q.state.avgEntryPrice| ≤ P := by
    rw [abs_le]
    constructor <;> linarith
  have hposition : |(q.state.position : ℚ)| ≤ q.state.totalVolumeTraded := by
    exact_mod_cast h.position_le
  have hp53 : |q.state.position| ≤ 2 ^ 53 := h.position_le.trans hsmall.volume
  -- the unrealized part
  have hsmallP := mul_le_mul_of_nonneg_left
    (by linarith : (16 * (n : ℚ) + 14) * epsilon ≤ 1) hP
  have hvalue : Near (ofInt q.state.position * (mid bid ask - p.state.avgEntryPrice))
      (q.state.position * ((mid bid ask : ℚ) - q.state.avgEntryPrice))
      (q.state.totalVolumeTraded * P * ((16 * n + 14) * epsilon)) := by
    have hPε := mul_nonneg hP hε
    have hraw := difference_near (value_intCast hp53) hnear (h.avg_near hP hfactor) hdiff
      hsmall.price hp53 (by linarith)
    refine hraw.mono ((mul_le_mul_of_nonneg_right hposition ?_).trans_eq (by ring))
    positivity
  have hbound : |(q.state.position : ℚ) * ((mid bid ask : ℚ) - q.state.avgEntryPrice)| ≤
      q.state.totalVolumeTraded * P := by
    rw [abs_mul]
    exact mul_le_mul hposition hdiff (abs_nonneg _) hV
  have hunrealized : Near (p.markToMarket (mid bid ask)).state.unrealizedPnl
      (q.markToMarket (mid bid ask)).state.unrealizedPnl
      (q.state.totalVolumeTraded * P * ((16 * n + 14) * epsilon)) := by
    show Near (ofInt p.state.position * _) _ _
    rw [h.position]
    exact hvalue
  -- the total
  have htotal := h.realized.add hunrealized
    (B := q.state.totalVolumeTraded * P + q.state.totalVolumeTraded * P)
    ((abs_add_le _ _).trans (add_le_add h.realized_le hbound)) (by
      have h₁ := mul_le_mul_of_nonneg_left
        (by linarith : (17 * (n : ℚ) + 7) * epsilon ≤ 1) hVP
      have h₂ := mul_le_mul_of_nonneg_left
        (by linarith : (16 * (n : ℚ) + 14) * epsilon ≤ 1) hVP
      linarith) (by linarith)
  exact { h with
    unrealized := hunrealized
    total := htotal.mono (le_of_eq (by
      show _ = (q.state.totalVolumeTraded : ℚ) * P * _
      ring)) }

/-! ## Whole runs -/

/-- What the pipeline tells a portfolio: a fill, or the best prices to mark at. -/
inductive Notice
  | fill (f : Fill)
  | quote (bid ask : Price)

/-- The call a notice makes. -/
def Notice.call {F : Type} [Double F] : Notice → PortfolioCall F
  | .fill f => .onFill f
  | .quote bid ask => .markToMarket (mid bid ask)

/-- What is asked of a notice. -/
def Notice.Ordinary (P : ℚ) : Notice → Prop
  | .fill f => Portfolio.Ordinary P f
  | .quote bid ask => (bid.Payable ∧ (bid.toDouble : ℚ) ≤ P) ∧ ask.Payable ∧ (ask.toDouble : ℚ) ≤ P

/-- The fills among the notices. -/
def fillsOf : List Notice → List Fill
  | [] => []
  | .fill f :: l => f :: fillsOf l
  | .quote _ _ :: l => fillsOf l

theorem fillsOf_append (l l' : List Notice) : fillsOf (l ++ l') = fillsOf l ++ fillsOf l' := by
  induction l with
  | nil => rfl
  | cons x l ih =>
    cases x with
    | fill f => exact congrArg (f :: ·) ih
    | quote bid ask => exact ih

variable (F : Type) [Double F] in
/-- The portfolio after some notices. -/
def noticed (l : List Notice) : Portfolio F := calls {} (l.map Notice.call)

variable {l : List Notice}

/-- **Run lemma.** -/
theorem shadows_noticed (hP : 0 ≤ P) (hP' : P ≤ 2 ^ 40) (hl : ∀ x ∈ l, x.Ordinary P)
    (hV : quantityOf (fillsOf l) ≤ 2 ^ 53) (hn : (fillsOf l).length ≤ 2 ^ 40) :
    Shadows P (fillsOf l).length (noticed Float.Model l).state (noticed ℚ l).state ∧
      (noticed ℚ l).state.totalVolumeTraded = quantityOf (fillsOf l) := by
  induction l using List.reverseRecOn with
  | nil => exact ⟨shadows_new, rfl⟩
  | append_singleton l x ih =>
    have hx := hl x (List.mem_append_right _ (List.mem_singleton_self x))
    have hl' : ∀ y ∈ l, y.Ordinary P := fun y hy => hl y (List.mem_append_left _ hy)
    have hstep : ∀ {F : Type} [Double F], noticed F (l ++ [x]) = (noticed F l).call x.call := by
      intro F _
      unfold noticed calls
      rw [List.map_append, List.map_cons, List.map_nil, run_concat]
    rw [hstep, hstep]
    rw [fillsOf_append] at hV hn ⊢
    cases x with
    | fill f =>
      have hf : Portfolio.Ordinary P f := hx
      have hquantity : quantityOf (fillsOf l ++ [f]) = quantityOf (fillsOf l) + f.quantity := by
        unfold quantityOf
        rw [List.map_append, List.sum_append]
        exact congrArg _ (add_zero _)
      have hlength : (fillsOf l ++ [f]).length = (fillsOf l).length + 1 := List.length_append
      have hsingle : fillsOf [.fill f] = [f] := rfl
      rw [hsingle] at hV hn ⊢
      rw [hquantity] at hV ⊢
      rw [hlength] at hn ⊢
      obtain ⟨h, hvolume⟩ := ih hl' (by have := hf.quantity; lia) (by omega)
      have hV' : (noticed ℚ l).state.totalVolumeTraded + f.quantity ≤ 2 ^ 53 := hvolume ▸ hV
      refine ⟨h.onFill hf ⟨hP, hP', hV', by omega⟩, ?_⟩
      rw [← hvolume]
      exact h.volume_onFill hf.quantity hV'
    | quote bid ask =>
      obtain ⟨⟨hbid, hbidP⟩, hask, haskP⟩ := hx
      have hsingle : fillsOf [.quote bid ask] = [] := rfl
      rw [hsingle, List.append_nil] at hV hn ⊢
      obtain ⟨h, hvolume⟩ := ih hl' hV hn
      exact ⟨h.mark ⟨hP, hP', hvolume ▸ hV, hn⟩ hbid hask hbidP haskP, hvolume⟩

/-- **The accounts on the machine.** After any fills and marks the machine has the shares and the
volume of exact arithmetic. Its dollars are off by at most `V * P`, the volume at the highest price,
times a few roundings for each of the `n` fills, however many marks there were. -/
theorem machine_accounting (hP : 0 ≤ P) (hP' : P ≤ 2 ^ 40) (hl : ∀ x ∈ l, x.Ordinary P)
    (hV : quantityOf (fillsOf l) ≤ 2 ^ 53) (hn : (fillsOf l).length ≤ 2 ^ 40) :
    let m := (noticed Float.Model l).state
    let s := (noticed ℚ l).state
    let V := (quantityOf (fillsOf l) : ℚ)
    let n := ((fillsOf l).length : ℚ)
    (m.position = s.position ∧ m.totalVolumeTraded = s.totalVolumeTraded) ∧
      Within m.avgEntryPrice s.avgEntryPrice (P * (16 * n * epsilon)) ∧
      Within m.turnover s.turnover (V * P * ((4 * n + 8) * epsilon)) ∧
      Within m.realizedPnl s.realizedPnl (V * P * ((17 * n + 7) * epsilon)) ∧
      Within m.unrealizedPnl s.unrealizedPnl (V * P * ((16 * n + 14) * epsilon)) ∧
      Within m.totalPnl s.totalPnl (V * P * ((33 * n + 23) * epsilon)) := by
  intro m s V n
  obtain ⟨h, hvolume⟩ := shadows_noticed hP hP' hl hV hn
  have hfactor := small_factor ⟨hP, hP', hV, hn⟩
  have hturnover := h.turnover.within (by
    have := epsilon_nonneg
    have := mul_nonneg (Nat.cast_nonneg (α := ℚ) (fillsOf l).length) epsilon_nonneg
    push_cast
    linarith)
  have hturnover_le := h.turnover_le
  have hrealized := h.realized.within
  have hunrealized := h.unrealized.within
  have htotal := h.total.within
  rw [hvolume] at hturnover_le hrealized hunrealized htotal
  refine ⟨⟨h.position, h.volume⟩, (h.avg_near hP hfactor).within, hturnover.mono ?_, hrealized,
    hunrealized, htotal⟩
  have hε : 0 ≤ (4 * n + 8) * epsilon :=
    mul_nonneg (by positivity) epsilon_nonneg
  exact (le_of_eq (by push_cast; ring)).trans (mul_le_mul_of_nonneg_right hturnover_le hε)

/-- Bought, marked, sold short, marked. -/
def swing : List Notice :=
  [.fill ⟨.buy, .fromTicks 1000100, 30⟩, .quote (.fromTicks 1000300) (.fromTicks 1000700),
    .fill ⟨.sell, .fromTicks 1000700, 50⟩, .quote (.fromTicks 1000100) (.fromTicks 1000200)]

theorem machine_accounting_swing :
    (noticed Float.Model swing).state.position = (noticed ℚ swing).state.position ∧
      Within (noticed Float.Model swing).state.totalPnl (noticed ℚ swing).state.totalPnl
        (80 * 101 * (89 * epsilon)) := by
  have h := machine_accounting (l := swing) (P := 101) (by norm_num) (by norm_num) (by
    intro x hx
    unfold swing at hx
    fin_cases hx
    · exact ⟨by decide, by decide, by decide +kernel⟩
    · exact ⟨⟨by decide, by decide +kernel⟩, by decide, by decide +kernel⟩
    · exact ⟨by decide, by decide, by decide +kernel⟩
    · exact ⟨⟨by decide, by decide +kernel⟩, by decide, by decide +kernel⟩) (by decide) (by decide)
  refine ⟨h.1.1, ?_⟩
  have htotal := h.2.2.2.2.2
  have hV : quantityOf (fillsOf swing) = 80 := rfl
  have hn : (fillsOf swing).length = 2 := rfl
  rw [hV, hn] at htotal
  norm_num at htotal
  norm_num
  exact htotal

end Portfolio

end Lob
