import LobMarketMaker.Foundation.SortedTable
import LobMarketMaker.MarketData.Events

/-!
# The synthetic book

A seeded generator of order-book events. It tracks the levels it has quoted on a grid around a
reference price that moves by one tick at a time; levels that a move or a trade invalidates are
queued and deleted one by one, ahead of any new activity.

* `Draws`: what the random engine of a seed and the library's `pow` return;
* `LevelSet`: `std::set<int64_t>`;
* `queueInvalidLevels`, `makeQuote`, `tryTrade`, `tryCancel`, `next`: the generator;
* `emit`: the events of the first `n` calls.
-/

set_option autoImplicit false

namespace Lob

open Foundation

/-- The draws of a seed, by their place in the stream, and `std::pow`. -/
structure Draws (F : Type) [Double F] where
  /-- `uniform_real_distribution(0, 1)`. -/
  unit : ℕ → F
  /-- `uniform_int_distribution(lo, hi)`. -/
  uniformInt : ℕ → ℤ → ℤ → ℤ
  pow : F → F → F
  unit_nonneg : ∀ n, ofInt 0 ≤ unit n
  uniformInt_mem : ∀ n lo hi, lo ≤ hi → lo ≤ uniformInt n lo hi ∧ uniformInt n lo hi ≤ hi
  pow_nonneg : ∀ x y, ofInt 0 ≤ x → ofInt 0 ≤ pow x y

/-- An ordered set of ticks. -/
structure LevelSet where
  ticks : List ℤ := []
  sorted : Sorted id (· < ·) ticks := by exact List.Pairwise.nil

namespace LevelSet

/-- `insert(px)`. -/
def insert (l : LevelSet) (px : ℤ) : LevelSet := ⟨put id (· < ·) px l.ticks, l.sorted.put px⟩

/-- `erase(px)`. -/
def erase (l : LevelSet) (px : ℤ) : LevelSet := ⟨remove id px l.ticks, l.sorted.remove px⟩

theorem mem_insert {l : LevelSet} {px x : ℤ} : x ∈ (l.insert px).ticks ↔ x = px ∨ x ∈ l.ticks := by
  refine mem_put.trans ⟨fun h => h.imp id And.left, fun h => ?_⟩
  by_cases hx : x = px
  · exact .inl hx
  · exact .inr ⟨h.resolve_left hx, hx⟩

theorem mem_erase {l : LevelSet} {px x : ℤ} : x ∈ (l.erase px).ticks ↔ x ∈ l.ticks ∧ x ≠ px :=
  mem_remove

theorem nodup (l : LevelSet) : l.ticks.Nodup := l.sorted.imp ne_of_lt

end LevelSet

/-- The members of the class. -/
structure SyntheticBookGenerator where
  /-- The number of draws taken. -/
  rng : ℕ := 0
  ref : ℤ
  tick : ℤ
  symbol : Symbol
  seq : SequenceNumber := 0
  t : Timestamp := 1700000000 * 1000000000
  bids : LevelSet := {}
  asks : LevelSet := {}
  /-- The levels to delete, oldest first. -/
  pending : List (Side × ℤ) := []

namespace SyntheticBookGenerator

/-- The levels of each side of the grid. -/
def kLevelsPerSide : ℤ := 10

/-- `kMoveProbability`. -/
def kMoveProbability {F : Type} [Double F] : F := ofInt 1 / ofInt 10

section Sides

variable (g : SyntheticBookGenerator)

/-- The levels quoted on a side. -/
def levels : BookSide → LevelSet
  | .bid => g.bids
  | .ask => g.asks

/-- The generator with the levels of one side replaced. -/
def setLevels (s : BookSide) (l : LevelSet) : SyntheticBookGenerator :=
  match s with
  | .bid => { g with bids := l }
  | .ask => { g with asks := l }

/-- The `k`-th price of a side, counted from the reference, in `int64_t`. -/
def grid (ref tick : ℤ) : BookSide → ℤ → ℤ
  | .bid, k => wrapI64 (ref - wrapI64 (tick * k))
  | .ask, k => wrapI64 (ref + wrapI64 (tick * k))

/-- A level is taken off a side and queued for deletion. -/
def withdraw (s : BookSide) (px : ℤ) : SyntheticBookGenerator :=
  { g.setLevels s ((g.levels s).erase px) with pending := g.pending ++ [(s.side, px)] }

/-- The test of `queue_invalid_levels`. -/
def invalid (s : BookSide) (px : ℤ) : Bool :=
  let window := wrapI64 (kLevelsPerSide * g.tick)
  match s with
  | .bid => px ≥ g.ref || px < wrapI64 (g.ref - window)
  | .ask => px ≤ g.ref || px > wrapI64 (g.ref + window)

/-- The loop over one side, in ascending order. -/
def queueInvalid (s : BookSide) : SyntheticBookGenerator :=
  ((g.levels s).ticks.filter (g.invalid s)).foldl (fun g px => g.withdraw s px) g

/-- `queue_invalid_levels`. -/
def queueInvalidLevels : SyntheticBookGenerator := (g.queueInvalid .bid).queueInvalid .ask

/-- The levels of a side from the touch on: `rbegin()` of the bids, `begin()` of the asks. -/
def bestFirst : BookSide → List ℤ
  | .bid => g.bids.ticks.reverse
  | .ask => g.asks.ticks

end Sides

variable {F : Type} [Double F] (draws : Draws F) (g : SyntheticBookGenerator)

/-- The constructor. -/
def new (startPrice tickSize : F) (symbol : Symbol) : SyntheticBookGenerator where
  ref := (Price.fromDouble startPrice).ticks
  tick := (Price.fromDouble tickSize).ticks
  symbol

/-- `unit()`. -/
def unit : F × SyntheticBookGenerator := (draws.unit g.rng, { g with rng := g.rng + 1 })

/-- A `uniform_int_distribution` drawn from. -/
def uniformInt (lo hi : ℤ) : ℤ × SyntheticBookGenerator :=
  (draws.uniformInt g.rng lo hi, { g with rng := g.rng + 1 })

/-- `qty()`. -/
def qty : Quantity × SyntheticBookGenerator := g.uniformInt draws 1 500

/-- `make_quote`: a level near the touch more often than one far from it. -/
def makeQuote : MarketEvent × SyntheticBookGenerator :=
  let (u, g) := g.unit draws
  let side : BookSide := if u < ofInt 1 / ofInt 2 then .bid else .ask
  let (v, g) := g.unit draws
  let level := toInt (draws.pow v (ofInt 2) * ofInt kLevelsPerSide)
  let level := min level (kLevelsPerSide - 1)
  let px := grid g.ref g.tick side (level + 1)
  let g := g.setLevels side ((g.levels side).insert px)
  let (qty, g) := g.qty draws
  (.makeQuote g.t g.seq g.symbol side.side (.fromTicks px) qty, g)

/-- `while (sweep < book_side.size() && unit() < 0.5) ++sweep`, with `room` levels left. -/
def sweepLoop : ℕ → ℕ → SyntheticBookGenerator → ℕ × SyntheticBookGenerator
  | 0, sweep, g => (sweep, g)
  | room + 1, sweep, g =>
    let (u, g) := g.unit draws
    if u < ofInt 1 / ofInt 2 then sweepLoop room (sweep + 1) g else (sweep, g)

/-- An aggressor sweeps one or more levels of the other side. The trade prints at the deepest of
them, and the others are queued for deletion. -/
def tryTrade : Option MarketEvent × SyntheticBookGenerator :=
  let (u, g) := g.unit draws
  -- a buy aggressor takes the asks
  let side : BookSide := if u < ofInt 1 / ofInt 2 then .ask else .bid
  let size := (g.levels side).ticks.length
  if size = 0 then (none, g)
  else
    let (sweep, g) := sweepLoop draws (size - 1) 1 g
    let swept := (g.bestFirst side).take sweep
    let g := swept.dropLast.foldl (fun g px => g.withdraw side px) g
    let (qty, g) := g.qty draws
    (some (.makeTrade g.t g.seq g.symbol side.other.side (.fromTicks (swept.getLastD 0)) qty), g)

/-- `try_cancel`: one level of a side is deleted, if it has any. -/
def tryCancel : Option MarketEvent × SyntheticBookGenerator :=
  let (u, g) := g.unit draws
  let side : BookSide := if u < ofInt 1 / ofInt 2 then .bid else .ask
  let size := (g.levels side).ticks.length
  if size = 0 then (none, g)
  else
    let (i, g) := g.uniformInt draws 0 (size - 1)
    let px := (g.levels side).ticks.getD i.toNat 0
    let g := g.setLevels side ((g.levels side).erase px)
    (some (.makeDelete g.t g.seq g.symbol side.side (.fromTicks px)), g)

/-- The next time stamp and sequence number. -/
def tickClock : SyntheticBookGenerator :=
  let (us, g) := g.uniformInt draws 50 2000
  { g with t := wrapI64 (g.t + us * 1000), seq := g.seq + 1 }

/-- The reference moves only when no deletion is pending. -/
def moveReference : SyntheticBookGenerator :=
  if g.pending.isEmpty then
    let (u, g) := g.unit draws
    if u < kMoveProbability then
      let (v, g) := g.unit draws
      { g with
        ref := wrapI64 (g.ref + (if v < ofInt 1 / ofInt 2 then -1 else 1) * g.tick)
      }.queueInvalidLevels
    else g
  else g

/-- A call with no deletion pending. -/
def activity : MarketEvent × SyntheticBookGenerator :=
  let (roll, g) := g.unit draws
  if roll < ofInt 5 / ofInt 100 then (.makeHeartbeat g.t g.seq g.symbol, g)
  else if roll < ofInt 30 / ofInt 100 then
    match g.tryTrade draws with
    | (some trade, g) => (trade, g)
    | (none, g) => g.makeQuote draws
  else if roll < ofInt 38 / ofInt 100 then
    match g.tryCancel draws with
    | (some cancel, g) => (cancel, g)
    | (none, g) => g.makeQuote draws
  else g.makeQuote draws

/-- `next()`: deletions pending go first. -/
def next : MarketEvent × SyntheticBookGenerator :=
  let g := (g.tickClock draws).moveReference draws
  match g.pending with
  | (side, px) :: pending =>
    (.makeDelete g.t g.seq g.symbol side (.fromTicks px), { g with pending })
  | [] => g.activity draws

/-- The events of the first `n` calls, and the generator after them. -/
def emit : ℕ → List MarketEvent × SyntheticBookGenerator
  | 0 => ([], g)
  | n + 1 => ((emit n).1 ++ [((emit n).2.next draws).1], ((emit n).2.next draws).2)

end SyntheticBookGenerator

end Lob
