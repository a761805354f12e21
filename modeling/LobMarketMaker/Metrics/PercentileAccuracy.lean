import LobMarketMaker.Foundation.NearestRank
import LobMarketMaker.Foundation.RoundAway
import LobMarketMaker.Metrics.BucketMap

/-!
# The accuracy of a latency percentile

Read with exact rationals, `percentile` finds the bucket of a sample by its rank and reports where
that bucket starts.

* `Records samples s`: the recorder `s` has counted `samples`; `run_records`: every run does;
* `scan_eq`: the loop of `percentile` as a `firstReaching` scan;
* `rank`: the rank that `percentile` looks for; `rank_eq`: at an integer `p` the added `0.999999`
  rounds `p * n / 100` up; `rank_mono`, `rank_pos`, `rank_le`: it grows with `p` and is a rank;
* `percentile_eq`: the start of the bucket of the sample of that rank;
* `lowerBoundOf_error`: how far a start is from a sample;
* **`percentile_accuracy`**: the accuracy, the order in `p` and the bound by the greatest sample.
-/

set_option autoImplicit false

namespace Lob

open Foundation

namespace LatencyStats

/-! ### What has been recorded -/

section Records

variable {F : Type} [Double F]

/-- The recorder holds exactly `samples`. -/
structure Records (samples : List ℕ) (s : LatencyStats F) : Prop where
  buckets : s.buckets = histogram bucketOf kBucketCount samples
  count : s.count = samples.length
  le_max : ∀ v ∈ samples, v ≤ s.max

theorem records_empty : Records [] ({} : LatencyStats F) where
  buckets := histogram_nil.symm
  count := rfl
  le_max _ hv := absurd hv List.not_mem_nil

theorem Records.addNs {samples : List ℕ} {s : LatencyStats F} (h : Records samples s) (ns : ℤ) :
    Records (samples ++ [clampNs ns]) (s.addNs ns) where
  buckets := by
    rw [histogram_concat, ← h.buckets]
    rfl
  count := by
    rw [List.length_append, ← h.count]
    rfl
  le_max v hv := by
    have hmax : (s.addNs ns).max = if clampNs ns > s.max then clampNs ns else s.max := rfl
    rw [hmax]
    rcases List.mem_append.mp hv with hv | hv
    · have := h.le_max v hv
      split <;> omega
    · rw [List.mem_singleton.mp hv]
      split <;> omega

/-- **Run lemma.** -/
theorem run_records (samples : List ℤ) :
    Records (samples.map clampNs) (run LatencyStats.addNs ({} : LatencyStats F) samples) := by
  refine run_history LatencyStats.addNs (P := fun pre s => Records (pre.map clampNs) s)
    records_empty ?_ samples
  intro pre s ns h
  rw [List.map_append, List.map_singleton]
  exact h.addNs ns

/-! ### The scan -/

theorem scan_eq (s : LatencyStats F) (target : ℕ) (buckets : List ℕ) (i cumulative : ℕ) :
    s.scan target buckets i cumulative =
      match firstReaching target buckets i cumulative with
      | some j => ofInt (lowerBoundOf j)
      | none => ofInt s.max := by
  induction buckets generalizing i cumulative with
  | nil => rfl
  | cons n buckets ih =>
    rw [scan, firstReaching]
    split
    · rfl
    · exact ih (i + 1) (cumulative + n)

theorem Records.scan_eq {samples : List ℕ} {s : LatencyStats F} (h : Records samples s) {k v : ℕ}
    (hk : 1 ≤ k) (hv : kthSmallest samples k = some v) (hfits : v < 2 ^ 64) :
    s.scan k s.buckets 0 0 = ofInt (lowerBoundOf (bucketOf v)) := by
  rw [LatencyStats.scan_eq, h.buckets,
    firstReaching_histogram bucketOf_mono hk hv (bucketOf_lt_iff.mpr hfits)]

end Records

/-! ### The rank -/

/-- The `target` of `percentile` among `n` samples. -/
def rank (n : ℕ) (p : ℚ) : ℕ :=
  let target := (toInt ((p / ofInt 100) * ofInt n + ofInt 999999 / ofInt 1000000)).toNat
  let target := if target < 1 then 1 else target
  if target > n then n else target

theorem rank_def (n : ℕ) (p : ℚ) :
    rank n p = min n (Max.max 1 (toInt (p / 100 * n + 999999 / 1000000)).toNat) := by
  simp only [rank, ofInt_rat, Int.cast_natCast, Int.cast_ofNat]
  split_ifs <;> omega

theorem rank_pos {n : ℕ} (hn : 1 ≤ n) (p : ℚ) : 1 ≤ rank n p := by
  rw [rank_def]
  omega

theorem rank_le (n : ℕ) (p : ℚ) : rank n p ≤ n := by
  rw [rank_def]
  exact min_le_left _ _

theorem rank_mono (n : ℕ) {p q : ℚ} (h : p ≤ q) : rank n p ≤ rank n q := by
  have hscaled : p / 100 * n ≤ q / 100 * n :=
    mul_le_mul_of_nonneg_right (by linarith) (Nat.cast_nonneg n)
  have htoInt : toInt (p / 100 * n + 999999 / 1000000) ≤ toInt (q / 100 * n + 999999 / 1000000) :=
    toInt_mono (by linarith)
  rw [rank_def, rank_def]
  omega

theorem floor_hundredth (a : ℤ) : ⌊(a : ℚ) / 100 + 999999 / 1000000⌋ = ⌈(a : ℚ) / 100⌉ := by
  rw [Int.floor_eq_iff]
  have hceil := Int.le_ceil ((a : ℚ) / 100)
  have hlt := Int.ceil_lt_add_one ((a : ℚ) / 100)
  -- the two sides differ by less than a hundredth, which integers over 100 cannot
  have hstep : 100 * ⌈(a : ℚ) / 100⌉ ≤ a + 99 := by
    have : (100 * ⌈(a : ℚ) / 100⌉ : ℚ) < a + 100 := by linarith
    have : 100 * ⌈(a : ℚ) / 100⌉ < a + 100 := by exact_mod_cast this
    omega
  have hstep' : (100 * ⌈(a : ℚ) / 100⌉ : ℚ) ≤ a + 99 := by exact_mod_cast hstep
  constructor <;> linarith

theorem rank_eq {n : ℕ} (hn : 1 ≤ n) {p : ℤ} (h₀ : 0 ≤ p) (h₁ : p ≤ 100) :
    rank n p = Max.max 1 ⌈((p * n : ℤ) : ℚ) / 100⌉₊ := by
  have hprod : (p : ℚ) / 100 * n = ((p * n : ℤ) : ℚ) / 100 := by
    rw [Int.cast_mul, Int.cast_natCast]
    ring
  have hnonneg : (0 : ℚ) ≤ ((p * n : ℤ) : ℚ) / 100 := by
    have : (0 : ℤ) ≤ p * n := by positivity
    have : (0 : ℚ) ≤ ((p * n : ℤ) : ℚ) := by exact_mod_cast this
    linarith
  have hle : ⌈((p * n : ℤ) : ℚ) / 100⌉₊ ≤ n := by
    rw [Nat.ceil_le]
    have : p * n ≤ 100 * n := mul_le_mul_of_nonneg_right h₁ (Int.natCast_nonneg n)
    have : ((p * n : ℤ) : ℚ) ≤ 100 * n := by exact_mod_cast this
    linarith
  rw [rank_def, hprod, toInt_of_nonneg (by linarith), floor_hundredth]
  have : ⌈((p * n : ℤ) : ℚ) / 100⌉.toNat = ⌈((p * n : ℤ) : ℚ) / 100⌉₊ := rfl
  rw [this]
  omega

/-! ### The percentile -/

theorem lowerBoundOf_error (v : ℕ) :
    lowerBoundOf (bucketOf v) ≤ v ∧ (v < 32 → lowerBoundOf (bucketOf v) = v) ∧
      (32 ≤ v → 16 * (v - lowerBoundOf (bucketOf v)) < v) := by
  refine ⟨lowerBoundOf_bucketOf_le v, fun hv => ?_, fun hv => ?_⟩
  · rw [bucketOf, if_pos hv, lowerBoundOf, if_pos hv]
  · rw [lowerBoundOf_eq, bucketOf_eq]
    exact bucketStart_error (b := 4) (le_trans (by decide) hv)

section Percentile

variable {samples : List ℕ} {s : LatencyStats ℚ} (h : Records samples s) (hne : samples ≠ [])
  (hfits : ∀ v ∈ samples, v < 2 ^ 64)

include h hne

theorem Records.count_pos : 1 ≤ s.count := by
  rw [h.count]
  exact List.length_pos_iff.mpr hne

theorem Records.exists_rank (p : ℚ) : ∃ v, kthSmallest samples (rank s.count p) = some v := by
  refine exists_kthSmallest (rank_pos (h.count_pos hne) p) ?_
  rw [← h.count]
  exact rank_le _ p

include hfits

theorem Records.percentile_eq {p : ℚ} {v : ℕ} (hv : kthSmallest samples (rank s.count p) = some v) :
    s.percentile p = lowerBoundOf (bucketOf v) := by
  have hpos := h.count_pos hne
  have hscan : s.percentile p = s.scan (rank s.count p) s.buckets 0 0 :=
    if_neg (Nat.one_le_iff_ne_zero.mp hpos)
  rw [hscan, h.scan_eq (rank_pos hpos p) hv (hfits v (mem_of_kthSmallest hv))]
  rfl

theorem Records.percentile_mono {p q : ℚ} (hpq : p ≤ q) : s.percentile p ≤ s.percentile q := by
  obtain ⟨v, hv⟩ := h.exists_rank hne p
  obtain ⟨w, hw⟩ := h.exists_rank hne q
  have hvw : v ≤ w := kthSmallest_le (rank_mono s.count hpq) hv hw
  rw [h.percentile_eq hne hfits hv, h.percentile_eq hne hfits hw, Nat.cast_le]
  exact lowerBoundOf_strictMono.monotone (bucketOf_mono hvw)

theorem Records.percentile_le_maxNs (p : ℚ) : s.percentile p ≤ s.maxNs := by
  obtain ⟨v, hv⟩ := h.exists_rank hne p
  have hmax : s.maxNs = (s.max : ℚ) := rfl
  rw [h.percentile_eq hne hfits hv, hmax, Nat.cast_le]
  exact (lowerBoundOf_bucketOf_le v).trans (h.le_max v (mem_of_kthSmallest hv))

end Percentile

/-- **The accuracy of a percentile.** It is the start of the bucket of the sample of its nearest
rank, exact below 32 and otherwise short by less than a sixteenth of the sample. -/
theorem percentile_accuracy (samples : List ℤ) (hne : samples ≠ [])
    (hrange : ∀ ns ∈ samples, InI64 ns) :
    (∀ p : ℤ, 0 ≤ p → p ≤ 100 → ∃ v L : ℕ,
      kthSmallest (samples.map clampNs) (Max.max 1 ⌈((p * samples.length : ℤ) : ℚ) / 100⌉₊) =
        some v ∧
      (run addNs ({} : LatencyStats ℚ) samples).percentile p = L ∧
      L ≤ v ∧ (v < 32 → L = v) ∧ (32 ≤ v → 16 * (v - L) < v)) ∧
    (∀ p q : ℚ, 0 ≤ p → p ≤ q →
      (run addNs ({} : LatencyStats ℚ) samples).percentile p ≤
        (run addNs ({} : LatencyStats ℚ) samples).percentile q) ∧
    ∀ p : ℚ, 0 ≤ p →
      (run addNs ({} : LatencyStats ℚ) samples).percentile p ≤
        (run addNs ({} : LatencyStats ℚ) samples).maxNs := by
  have h := run_records (F := ℚ) samples
  have hne' : samples.map clampNs ≠ [] := by
    rwa [ne_eq, List.map_eq_nil_iff]
  have hfits : ∀ v ∈ samples.map clampNs, v < 2 ^ 64 := by
    intro v hv
    obtain ⟨ns, hns, rfl⟩ := List.mem_map.mp hv
    exact clampNs_lt (hrange ns hns)
  refine ⟨fun p h₀ h₁ => ?_, fun p q _ hpq => h.percentile_mono hne' hfits hpq,
    fun p _ => h.percentile_le_maxNs hne' hfits p⟩
  obtain ⟨v, hv⟩ := h.exists_rank hne' p
  refine ⟨v, lowerBoundOf (bucketOf v), ?_, h.percentile_eq hne' hfits hv, lowerBoundOf_error v⟩
  rw [← rank_eq (List.length_pos_iff.mpr hne) h₀ h₁, ← hv, h.count, List.length_map]

/-- The median of five samples, one of them negative. -/
theorem percentile_accuracy_median : ∃ v L : ℕ,
    kthSmallest ([1000, -7, 100, 30, 500].map clampNs) (Max.max 1 ⌈((50 * 5 : ℤ) : ℚ) / 100⌉₊) =
      some v ∧
    (run addNs ({} : LatencyStats ℚ) [1000, -7, 100, 30, 500]).percentile (50 : ℤ) = L ∧
    L ≤ v ∧ (v < 32 → L = v) ∧ (32 ≤ v → 16 * (v - L) < v) :=
  (percentile_accuracy [1000, -7, 100, 30, 500] (List.cons_ne_nil _ _) (by decide)).1 50
    (by decide) (by decide)

end LatencyStats

end Lob
