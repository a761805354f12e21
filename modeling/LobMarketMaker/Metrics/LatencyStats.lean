import LobMarketMaker.Foundation.Double
import Mathlib.Data.Nat.Log

/-!
# The latency histogram

Values below 32 have a bucket each; above, each power of two is split into 16 linear sub-buckets.
-/

set_option autoImplicit false

namespace Lob

open Foundation

namespace LatencyStats

/-- 32 linear buckets and 59 octaves of 16. -/
def kBucketCount : ℕ := 32 + 59 * 16

/-- `bucket_of`: the bucket that counts `v`. -/
def bucketOf (v : ℕ) : ℕ :=
  if v < 32 then v
  else
    let m := v.log2
    let sub := (v >>> (m - 4)) &&& 15
    32 + (m - 5) * 16 + sub

/-- `lower_bound_of`: the least value of a bucket. -/
def lowerBoundOf (idx : ℕ) : ℕ :=
  if idx < 32 then idx
  else
    let k := idx - 32
    let m := 5 + k / 16
    let sub := k % 16
    (16 + sub) <<< (m - 4)

end LatencyStats

/-- Constant-memory latency recorder (nanoseconds). -/
structure LatencyStats (F : Type) [Double F] where
  buckets : List ℕ := List.replicate LatencyStats.kBucketCount 0
  count : ℕ := 0
  sum : F := ofInt 0
  max : ℕ := 0

namespace LatencyStats

variable {F : Type} [Double F] (s : LatencyStats F)

/-- `add_ns`: a negative latency counts as zero. -/
def addNs (ns : ℤ) : LatencyStats F :=
  let v := if ns < 0 then 0 else ns.toNat
  { buckets := s.buckets.modify (bucketOf v) (· + 1)
    count := s.count + 1
    sum := s.sum + ofInt v
    max := if v > s.max then v else s.max }

/-- The scan of `percentile` from bucket `i` on. -/
def scan (target : ℕ) : List ℕ → ℕ → ℕ → F
  | [], _, _ => ofInt s.max
  | n :: buckets, i, cumulative =>
    if cumulative + n ≥ target then ofInt (lowerBoundOf i)
    else scan target buckets (i + 1) (cumulative + n)

/-- Nearest-rank percentile; the bucket's lower bound. -/
def percentile (p : F) : F :=
  if s.count = 0 then ofInt 0
  else
    let target :=
      (toInt ((p / ofInt 100) * ofInt s.count + ofInt 999999 / ofInt 1000000)).toNat
    let target := if target < 1 then 1 else target
    let target := if target > s.count then s.count else target
    s.scan target s.buckets 0 0

/-- `max_ns()`. -/
def maxNs : F := ofInt s.max

end LatencyStats

end Lob
