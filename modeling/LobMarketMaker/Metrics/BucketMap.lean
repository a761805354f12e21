import LobMarketMaker.Foundation.Bytes
import LobMarketMaker.Foundation.LogBuckets
import LobMarketMaker.Foundation.Runs
import LobMarketMaker.Metrics.LatencyStats

/-!
# The bucket map of the latency histogram

`bucketOf` and `lowerBoundOf` are log-linear buckets with four bits after the leading one; on
64-bit words no operation of theirs wraps, so the words split into `kBucketCount` intervals.

* `bucketOf_eq`, `lowerBoundOf_eq`: the maps on numbers as `bucketIndex 4` and `bucketStart 4`;
* `bucketOfWord`, `lowerBoundOfWord`: the maps on words, every operation modulo `2 ^ 64`;
  `toNat_bucketOfWord`, `toNat_lowerBoundOfWord`: their values are those of the maps on numbers;
* `length_buckets`: recording never changes the number of buckets;
* **`bucketMap_partition`**: the exact partition.
-/

set_option autoImplicit false

namespace Lob

open Foundation

namespace LatencyStats

/-! ### The maps as log-linear buckets -/

theorem bucketOf_eq (v : ℕ) : bucketOf v = bucketIndex 4 v := by
  by_cases hv : v < 32
  · rw [bucketOf, if_pos hv]
    exact (bucketIndex_of_lt hv).symm
  · have hne : v ≠ 0 := by omega
    have hm : 5 ≤ v.log2 := (Nat.le_log2 hne).mpr (not_lt.mp hv)
    obtain ⟨e, hlog⟩ : ∃ e, v.log2 = e + 5 := ⟨v.log2 - 5, by omega⟩
    have hexp : v.log2 - 4 = e + 1 := by omega
    have hlow : 16 ≤ v >>> (e + 1) := by
      rw [Nat.shiftRight_eq_div_pow, Nat.le_div_iff_mul_le (Nat.two_pow_pos _)]
      calc 16 * 2 ^ (e + 1) = 2 ^ v.log2 := by rw [hlog]; ring
        _ ≤ v := Nat.log2_self_le hne
    have hhigh : v >>> (e + 1) < 32 := by
      rw [Nat.shiftRight_eq_div_pow, Nat.div_lt_iff_lt_mul (Nat.two_pow_pos _)]
      calc v < 2 ^ (v.log2 + 1) := Nat.lt_log2_self
        _ = 32 * 2 ^ (e + 1) := by rw [hlog]; ring
    have hmask : (v >>> (e + 1)) &&& 15 = v >>> (e + 1) % 16 := Nat.and_two_pow_sub_one_eq_mod _ 4
    rw [bucketOf, if_neg hv, bucketIndex_of_le (not_lt.mp hv)]
    simp only [hexp, hmask]
    omega

theorem lowerBoundOf_eq (i : ℕ) : lowerBoundOf i = bucketStart 4 i := by
  by_cases hi : i < 32
  · rw [lowerBoundOf, if_pos hi]
    exact (bucketStart_of_lt hi).symm
  · have hsub : 16 + (i - 32) % 16 = 2 ^ 4 + i % 2 ^ 4 := by omega
    have hexp : 5 + (i - 32) / 16 - 4 = i / 2 ^ 4 - 1 := by omega
    rw [lowerBoundOf, if_neg hi, bucketStart_of_le (not_lt.mp hi)]
    simp only [hsub, hexp]

theorem lowerBoundOf_gc : GaloisConnection lowerBoundOf bucketOf := by
  intro i v
  rw [lowerBoundOf_eq, bucketOf_eq]
  exact bucketStart_gc i v

theorem lowerBoundOf_strictMono : StrictMono lowerBoundOf := by
  intro i j h
  rw [lowerBoundOf_eq, lowerBoundOf_eq]
  exact bucketStart_strictMono h

theorem bucketOf_mono : Monotone bucketOf := lowerBoundOf_gc.monotone_u

theorem lowerBoundOf_bucketOf_le (v : ℕ) : lowerBoundOf (bucketOf v) ≤ v := lowerBoundOf_gc.l_u_le v

theorem lt_lowerBoundOf_bucketOf_succ (v : ℕ) : v < lowerBoundOf (bucketOf v + 1) := by
  rw [lowerBoundOf_eq, bucketOf_eq]
  exact lt_bucketStart_bucketIndex_succ v

theorem bucketOf_lowerBoundOf (i : ℕ) : bucketOf (lowerBoundOf i) = i := by
  rw [lowerBoundOf_eq, bucketOf_eq]
  exact bucketIndex_bucketStart i

theorem lowerBoundOf_kBucketCount : lowerBoundOf kBucketCount = 2 ^ 64 := by
  rw [lowerBoundOf_eq]
  exact bucketStart_top (show 4 ≤ 64 by decide)

theorem bucketOf_lt_iff {v : ℕ} : bucketOf v < kBucketCount ↔ v < 2 ^ 64 := by
  rw [← lowerBoundOf_kBucketCount]
  exact (lowerBoundOf_gc.lt_iff_lt).symm

theorem lowerBoundOf_lt_iff {i : ℕ} : lowerBoundOf i < 2 ^ 64 ↔ i < kBucketCount := by
  rw [← lowerBoundOf_kBucketCount]
  exact lowerBoundOf_strictMono.lt_iff_lt

/-! ### The maps on words -/

/-- `bucket_of` on a `uint64_t`; `clz` is `std::countl_zero`, and `m` is an `int`. -/
def bucketOfWord (v : BitVec 64) : BitVec 64 :=
  if v < 32#64 then v
  else
    let m := 63 - v.clz.toNat
    let sub := (v >>> (m - 4)) &&& 15#64
    32#64 + BitVec.ofNat 64 (m - 5) * 16#64 + sub

/-- `lower_bound_of` on a `size_t`. -/
def lowerBoundOfWord (idx : BitVec 64) : BitVec 64 :=
  if idx < 32#64 then idx
  else
    let k := idx - 32#64
    let m := 5 + (k / 16#64).toNat
    let sub := k % 16#64
    (16#64 + sub) <<< (m - 4)

theorem log2_toNat {v : BitVec 64} (h : v ≠ 0) : 63 - v.clz.toNat = v.toNat.log2 := by
  have hlow := BitVec.two_pow_sub_clz_le_toNat_of_ne_zero (x := v) (by decide) h
  have hhigh := BitVec.toNat_lt_two_pow_sub_clz (x := v)
  have hpos : v.toNat ≠ 0 := fun h0 => h (BitVec.eq_of_toNat_eq h0)
  have hclz : v.clz.toNat < 64 := by
    by_contra hge
    rw [Nat.sub_eq_zero_of_le (not_lt.mp hge), pow_zero] at hhigh
    omega
  symm
  rw [Nat.log2_eq_iff hpos]
  refine ⟨hlow, ?_⟩
  rwa [show 63 - v.clz.toNat + 1 = 64 - v.clz.toNat by omega]

/-- **No operation of `bucket_of` wraps.** -/
theorem toNat_bucketOfWord (v : BitVec 64) : (bucketOfWord v).toNat = bucketOf v.toNat := by
  by_cases hv : v.toNat < 32
  · rw [bucketOfWord, if_pos (BitVec.lt_def.mpr hv), bucketOf, if_pos hv]
  · have hv' : ¬ v < 32#64 := fun h => hv (BitVec.lt_def.mp h)
    have hne : v ≠ 0 := by
      rintro rfl
      exact hv (by decide)
    have hlog : v.toNat.log2 < 64 := by
      rw [← log2_toNat hne]
      omega
    have hsub : v.toNat >>> (v.toNat.log2 - 4) &&& 15 ≤ 15 := Nat.and_le_right
    rw [bucketOfWord, if_neg hv', bucketOf, if_neg hv]
    simp only [log2_toNat hne, BitVec.toNat_add, BitVec.toNat_mul, BitVec.toNat_ofNat,
      BitVec.toNat_and, BitVec.toNat_ushiftRight, show 15 % 2 ^ 64 = 15 from rfl]
    omega

/-- **The shift of `lower_bound_of` loses no bits** at a bucket index. -/
theorem toNat_lowerBoundOfWord {i : BitVec 64} (h : i.toNat < kBucketCount) :
    (lowerBoundOfWord i).toNat = lowerBoundOf i.toNat := by
  by_cases hi : i.toNat < 32
  · rw [lowerBoundOfWord, if_pos (BitVec.lt_def.mpr hi), lowerBoundOf, if_pos hi]
  · have hi' : ¬ i < 32#64 := fun h => hi (BitVec.lt_def.mp h)
    have hk : (i - 32#64).toNat = i.toNat - 32 :=
      BitVec.toNat_sub_of_le (BitVec.le_def.mpr (not_lt.mp hi))
    have hmod : ((i - 32#64) % 16#64).toNat = (i.toNat - 32) % 16 := by
      rw [BitVec.toNat_umod, hk]
      rfl
    have hsub : (16#64 + (i - 32#64) % 16#64).toNat = 16 + (i.toNat - 32) % 16 := by
      rw [BitVec.toNat_add, hmod, BitVec.toNat_ofNat]
      omega
    have hfits := lowerBoundOf_lt_iff.mpr h
    rw [lowerBoundOf, if_neg hi] at hfits ⊢
    rw [lowerBoundOfWord, if_neg hi']
    simp only [BitVec.toNat_shiftLeft, hsub, BitVec.toNat_udiv, hk]
    exact Nat.mod_eq_of_lt hfits

/-! ### Recording -/

/-- The value that `add_ns` counts. -/
def clampNs (ns : ℤ) : ℕ := if ns < 0 then 0 else ns.toNat

theorem clampNs_lt {ns : ℤ} (h : InI64 ns) : clampNs ns < 2 ^ 64 := by
  obtain ⟨-, h⟩ := h
  rw [clampNs]
  split <;> omega

variable {F : Type} [Double F]

theorem length_buckets (samples : List ℤ) :
    (run addNs ({} : LatencyStats F) samples).buckets.length = kBucketCount := by
  refine run_invariant addNs (P := fun s => s.buckets.length = kBucketCount) ?_ ?_ samples
  · intro s ns hs
    exact (List.length_modify ..).trans hs
  · exact List.length_replicate

/-- **Every word has exactly one bucket**, every bucket a start without lost bits, and recording
stays within the array. -/
theorem bucketMap_partition :
    (∀ v : BitVec 64, (bucketOfWord v).toNat = bucketOf v.toNat ∧
      (bucketOfWord v).toNat < kBucketCount ∧
      lowerBoundOfWord (bucketOfWord v) ≤ v ∧
      ((bucketOfWord v).toNat + 1 < kBucketCount → v < lowerBoundOfWord (bucketOfWord v + 1))) ∧
    (∀ i : BitVec 64, i.toNat < kBucketCount →
      (lowerBoundOfWord i).toNat = lowerBoundOf i.toNat ∧
      bucketOfWord (lowerBoundOfWord i) = i) ∧
    (∀ v w : BitVec 64, v ≤ w → bucketOfWord v ≤ bucketOfWord w) ∧
    (∀ i j : BitVec 64, j.toNat < kBucketCount → i ≤ j →
      lowerBoundOfWord i ≤ lowerBoundOfWord j) ∧
    ∀ (samples : List ℤ) (ns : ℤ), InI64 ns →
      bucketOf (clampNs ns) < (run addNs ({} : LatencyStats F) samples).buckets.length := by
  refine ⟨fun v => ?_, fun i hi => ?_, fun v w h => ?_, fun i j hj h => ?_,
    fun samples ns hns => ?_⟩
  · have hlt : (bucketOfWord v).toNat < kBucketCount := by
      rw [toNat_bucketOfWord]
      exact bucketOf_lt_iff.mpr v.isLt
    refine ⟨toNat_bucketOfWord v, hlt, ?_, fun hnext => ?_⟩
    · rw [BitVec.le_def, toNat_lowerBoundOfWord hlt, toNat_bucketOfWord]
      exact lowerBoundOf_bucketOf_le v.toNat
    · have hsucc : (bucketOfWord v + 1).toNat = (bucketOfWord v).toNat + 1 := by
        rw [BitVec.toNat_add]
        exact Nat.mod_eq_of_lt (hnext.trans (by decide))
      rw [← hsucc] at hnext
      rw [BitVec.lt_def, toNat_lowerBoundOfWord hnext, hsucc, toNat_bucketOfWord]
      exact lt_lowerBoundOf_bucketOf_succ v.toNat
  · refine ⟨toNat_lowerBoundOfWord hi, BitVec.eq_of_toNat_eq ?_⟩
    rw [toNat_bucketOfWord, toNat_lowerBoundOfWord hi]
    exact bucketOf_lowerBoundOf i.toNat
  · rw [BitVec.le_def, toNat_bucketOfWord, toNat_bucketOfWord]
    exact bucketOf_mono h
  · rw [BitVec.le_def, toNat_lowerBoundOfWord (lt_of_le_of_lt h hj), toNat_lowerBoundOfWord hj]
    exact lowerBoundOf_strictMono.monotone h
  · rw [length_buckets]
    exact bucketOf_lt_iff.mpr (clampNs_lt hns)

end LatencyStats

end Lob
