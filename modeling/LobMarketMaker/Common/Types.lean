import LobMarketMaker.Foundation.Rat64
import Mathlib.Order.Basic
import Mathlib.Order.Defs.LinearOrder

/-!
# Common types

Prices are integer ticks, quantities, timestamps (nanoseconds) and identifiers are integers. A
C++ enumeration with an underlying byte may hold a byte that no enumerator names; such values
are read from event logs, so `Side` and `EventType` have them too.
-/

set_option autoImplicit false

namespace Lob

open Foundation

/-- A price in ticks. -/
@[ext] structure Price where
  ticks : ℤ := 0
  deriving DecidableEq

namespace Price

/-- Ticks for one dollar. -/
def kScale : ℤ := 10000

/-- `Price::from_ticks`. -/
def fromTicks (ticks : ℤ) : Price := ⟨ticks⟩

instance : LinearOrder Price := LinearOrder.lift' ticks fun _ _ h => Price.ext h

theorem lt_iff {p q : Price} : p < q ↔ p.ticks < q.ticks := Iff.rfl

@[simp] theorem fromTicks_inj {x y : ℤ} : fromTicks x = fromTicks y ↔ x = y :=
  ⟨fun h => congrArg ticks h, congrArg fromTicks⟩

variable {F : Type} [Double F]

/-- The dollars in ticks and half a tick away from zero. -/
def scaled (dollars : F) : F :=
  dollars * ofInt kScale + if ofInt 0 ≤ dollars then ofInt 1 / ofInt 2 else -(ofInt 1 / ofInt 2)

/-- Rounding half away from zero. -/
def fromDouble (dollars : F) : Price := fromTicks (toInt (scaled dollars))

/-- The price in dollars. -/
def toDouble (p : Price) : F := ofInt p.ticks / ofInt kScale

theorem fromDouble_ticks (dollars : ℚ) :
    (fromDouble dollars).ticks = roundAway (dollars * 10000) := by
  have h : 0 ≤ dollars * 10000 ↔ 0 ≤ dollars := by
    constructor <;> intro h <;> linarith
  unfold fromDouble scaled fromTicks roundAway
  simp only [h]
  rfl

/-- With the machine's cast, they are if the ticks fit. -/
theorem fromDouble_ticks64 (dollars : Rat64) :
    (fromDouble dollars).ticks = castI64 (roundAway (dollars.val * 10000)) := by
  refine Rat64.toInt_half (dollars * ofInt kScale) ?_
  show (ofInt 0 : Rat64).val ≤ dollars.val ↔ 0 ≤ dollars.val * 10000
  rw [Rat64.val_ofInt, Int.cast_zero]
  constructor <;> intro h <;> linarith

theorem fromDouble_mono {x y : ℚ} (h : x ≤ y) : fromDouble x ≤ fromDouble y := by
  show (fromDouble x).ticks ≤ (fromDouble y).ticks
  rw [fromDouble_ticks, fromDouble_ticks]
  exact roundAway_mono (by linarith)

theorem toDouble_rat (p : Price) : (p.toDouble : ℚ) = p.ticks / 10000 := rfl

theorem toDouble_mono {p q : Price} (h : p ≤ q) : (p.toDouble : ℚ) ≤ q.toDouble := by
  have hticks : (p.ticks : ℚ) ≤ q.ticks := by exact_mod_cast h
  rw [toDouble_rat, toDouble_rat]
  linarith

theorem fromDouble_toDouble (p : Price) : fromDouble (p.toDouble : ℚ) = p := by
  refine Price.ext ?_
  rw [fromDouble_ticks, toDouble_rat, div_mul_cancel₀ _ (by norm_num), roundAway_intCast]

end Price

/-- Signed 64 bits in the code; arithmetic that can leave them is wrapped where it is done. -/
abbrev Quantity := ℤ

/-- Unsigned 64 bits, counted up from one. -/
abbrev OrderId := ℕ

/-- Unsigned 64 bits. -/
abbrev SequenceNumber := ℕ

/-- `std::chrono::nanoseconds` since the epoch. -/
abbrev Timestamp := ℤ

/-- `enum class Side : uint8_t`. -/
inductive Side where
  | buy
  | sell
  | unnamed (raw : UInt8) (h : 2 ≤ raw)
  deriving DecidableEq

/-- `static_cast<uint8_t>`. -/
def Side.raw : Side → UInt8
  | .buy => 0
  | .sell => 1
  | .unnamed raw _ => raw

/-- `static_cast<Side>`. -/
def Side.ofRaw (raw : UInt8) : Side :=
  if h : 2 ≤ raw then .unnamed raw h else if raw = 0 then .buy else .sell

@[simp] theorem Side.ofRaw_raw (s : Side) : ofRaw s.raw = s := by
  cases s with
  | buy => rfl
  | sell => rfl
  | unnamed raw h => exact dif_pos h

/-- The two halves of a book. -/
inductive BookSide where
  | bid
  | ask
  deriving DecidableEq

/-- `side == Side::Buy ? bids : asks`. -/
def Side.book : Side → BookSide
  | .buy => .bid
  | _ => .ask

/-- The side of the orders that rest on a half of the book. -/
def BookSide.side : BookSide → Side
  | .bid => .buy
  | .ask => .sell

/-- The half on the other side of the spread. -/
def BookSide.other : BookSide → BookSide
  | .bid => .ask
  | .ask => .bid

namespace BookSide

theorem eq_or_eq_other (s t : BookSide) : t = s ∨ t = s.other := by
  cases s <;> cases t <;> simp [other]

theorem other_ne (s : BookSide) : s.other ≠ s := by cases s <;> exact nofun

@[simp] theorem other_other (s : BookSide) : s.other.other = s := by cases s <;> rfl

@[simp] theorem side_inj {s t : BookSide} : s.side = t.side ↔ s = t := by
  cases s <;> cases t <;> simp [side]

@[simp] theorem book_side (s : BookSide) : s.side.book = s := by cases s <;> rfl

end BookSide

/-- A symbol of at most `kMaxLen` characters, as `view()` shows it. -/
@[ext] structure Symbol where
  view : List UInt8
  len_le : view.length ≤ 15
  deriving DecidableEq

namespace Symbol

/-- `Symbol::kMaxLen`. -/
def kMaxLen : ℕ := 15

/-- The constructor from a string view keeps the first `kMaxLen` characters. -/
def ofView (sv : List UInt8) : Symbol := ⟨sv.take kMaxLen, by simp [kMaxLen]⟩

theorem ofView_view (s : Symbol) : ofView s.view = s :=
  Symbol.ext (List.take_of_length_le s.len_le)

end Symbol

/-- `enum class OrderType`. -/
inductive OrderType where
  | limit
  | market
  deriving DecidableEq

/-- `enum class OrderStatus`. -/
inductive OrderStatus where
  | new
  | partiallyFilled
  | filled
  | canceled
  | rejected
  deriving DecidableEq

end Lob
