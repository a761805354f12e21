import LobMarketMaker.Foundation.Binary64Bounds
import LobMarketMaker.MarketData.FinnhubParser

/-!
# Ticks that overflow

The parser stores the timestamp of a tick modulo `2 ^ 64` and checks that the price is positive.
The adapter then scales the timestamp to nanoseconds, rounds the volume, and scales the trade, bid
and ask prices to ticks, all into 64 bits. The prices are the machine's doubles, which round when
half the spread is added and again when the ticks are computed.

* `DollarsFit`, `castFits_scaled_iff`: the dollars whose ticks fit;
* `Representable`, `InBounds`: what the conversions should keep, and the bounds on the fields of a
  tick under which they do (`representable_iff`);
* **`no_overflow_iff`**.
-/

set_option autoImplicit false

namespace Lob

open Foundation Binary64

theorem inI64_nanoseconds_iff (n : ℤ) : InI64 (n * 1000000) ↔ |n| ≤ 9223372036854 := by
  unfold InI64
  rw [abs_le]
  omega

theorem toInt64_eq_self_iff {n : ℤ} (h : -2 ^ 63 ≤ n ∧ n < 2 ^ 64) :
    toInt64 n = n ↔ n < 2 ^ 63 := by
  unfold toInt64
  rw [Int.bmod_def]
  push_cast
  split_ifs <;> omega

/-! ## Dollars -/

/-- The dollars do not lie beyond the greatest double that fits its ticks, and not beyond the least
one: the midpoint above `922337203685477.5` is rounded to it, the one below `-922337203685477.625`
is not. -/
def DollarsFit (x : ℚ) : Prop := -14757395258967643 / 16 < x ∧ x ≤ 14757395258967641 / 16

/-- The doubles that fit their ticks. -/
def dollarsWindow : Window where
  below := ⟨7378697629483821, -3, by unfold Binary64.Normal; norm_num, by norm_num, by norm_num⟩
  above := ⟨7378697629483820, -3, by unfold Binary64.Normal; norm_num, by norm_num, by norm_num⟩

theorem dollarsWindow_val : dollarsWindow.below.val = 7378697629483821 / 8 ∧
    dollarsWindow.above.val = 7378697629483820 / 8 := by
  unfold dollarsWindow Bound.val
  norm_num

theorem dollarsWindow_next : dollarsWindow.below.next = 7378697629483822 / 8 ∧
    dollarsWindow.above.next = 7378697629483821 / 8 := by
  unfold dollarsWindow Bound.next
  norm_num

theorem dollarsWindow_takes_iff (x : ℚ) : dollarsWindow.Takes x ↔ DollarsFit x := by
  have heven : Even 7378697629483820 := by decide
  have hodd : ¬ Even 7378697629483821 := by decide
  have hmid : ((7378697629483820 : ℕ) + 1 / 2 : ℚ) * 2 ^ (-3 : ℤ) = 14757395258967641 / 16 := by
    norm_num
  have hmid' : ((7378697629483821 : ℕ) + 1 / 2 : ℚ) * 2 ^ (-3 : ℤ) = 14757395258967643 / 16 := by
    norm_num
  unfold Window.Takes Bound.Covers dollarsWindow DollarsFit
  simp only [heven, hodd, and_true, and_false, or_false, hmid, hmid', ← le_iff_lt_or_eq]
  rw [neg_lt, neg_div]

theorem i64Window_takes_iff (x : ℚ) :
    i64Window.Takes x ↔ -2 ^ 63 - 1024 ≤ x ∧ x < 2 ^ 63 - 512 := by
  have heven : Even (2 ^ 52) := by decide
  have hodd : ¬ Even (2 ^ 53 - 1) := by decide
  have hmid : ((2 ^ 52 : ℕ) + 1 / 2 : ℚ) * 2 ^ (11 : ℤ) = 2 ^ 63 + 1024 := by norm_num
  have hmid' : ((2 ^ 53 - 1 : ℕ) + 1 / 2 : ℚ) * 2 ^ (10 : ℤ) = 2 ^ 63 - 512 := by norm_num
  unfold Window.Takes Bound.Covers i64Window
  simp only [heven, hodd, and_true, and_false, or_false, hmid, hmid', ← le_iff_lt_or_eq]
  rw [neg_le, neg_add']

theorem real?_half (c : Prop) [Decidable c] : ∃ h, |h| ≤ 1 / 2 ∧
    real? (if c then (ofInt 1 / ofInt 2 : Float.Model) else -(ofInt 1 / ofInt 2)) = some h := by
  split_ifs
  · exact ⟨1 / 2, by norm_num, by decide +kernel⟩
  · exact ⟨-(1 / 2), by norm_num, by decide +kernel⟩

theorem real?_kScale : real? (ofInt Price.kScale) = some 10000 := by decide +kernel

/-- **The dollars whose ticks fit.** -/
theorem castFits_scaled_iff (d : Float.Model) :
    CastFits (Price.scaled d) ↔ dollarsWindow.Holds d := by
  obtain ⟨h, hsmall, hhalf⟩ := real?_half (ofInt 0 ≤ d)
  obtain ⟨hlow, hhigh⟩ := abs_le.mp hsmall
  obtain ⟨hbelow, habove⟩ := i64Window_val
  obtain ⟨hbelow', habove'⟩ := i64Window_next
  obtain ⟨hbelow₁, habove₁⟩ := dollarsWindow_val
  obtain ⟨hbelow₂, habove₂⟩ := dollarsWindow_next
  -- the half tick moves no double out of the window, nor into it
  have hticks : CastFits (Price.scaled d) ↔ i64Window.Holds (d * ofInt Price.kScale) := by
    rw [castFits_iff, Price.scaled, Window.holds_add_iff]
    constructor
    · rintro ⟨q, h', hq, hh', htakes⟩
      rw [hhalf] at hh'
      cases hh'
      obtain ⟨h₁, h₂⟩ := (i64Window_takes_iff _).mp htakes
      rw [i64Window.holds_iff_lt hq, hbelow', habove']
      constructor <;> linarith
    · rintro ⟨q, hq, h₁, h₂⟩
      rw [hbelow] at h₁
      rw [habove] at h₂
      exact ⟨q, h, hq, hhalf, (i64Window_takes_iff _).mpr ⟨by linarith, by linarith⟩⟩
  rw [hticks, Window.holds_mul_iff]
  constructor
  · rintro ⟨x, y, hx, hy, htakes⟩
    rw [real?_kScale] at hy
    cases hy
    obtain ⟨h₁, h₂⟩ := (i64Window_takes_iff _).mp htakes
    rw [dollarsWindow.holds_iff_lt hx, hbelow₂, habove₂]
    constructor <;> linarith
  · rintro ⟨x, hx, h₁, h₂⟩
    rw [hbelow₁] at h₁
    rw [habove₁] at h₂
    exact ⟨x, 10000, hx, real?_kScale, (i64Window_takes_iff _).mpr ⟨by linarith, by linarith⟩⟩

/-! ## Ticks -/

/-- What the code should keep of an accepted tick: the timestamp as it is, and every conversion of
the adapter within 64 bits. -/
structure Representable (a : TradeTapeAdapter Float.Model) (tick : Json Float.Model)
    (trade : FinnhubTrade Float.Model) : Prop where
  timestamp : (tick.find kTimestamp).bind Json.literal? = some trade.timestampMs
  nanoseconds : InI64 (trade.timestampMs * 1000000)
  volume : ∃ v, real? trade.volume = some v ∧ InI64 (roundAway v)
  price : CastFits (Price.scaled trade.price)
  bid : CastFits (Price.scaled (trade.price - a.halfSpread))
  ask : CastFits (Price.scaled (trade.price + a.halfSpread))

/-- Bounds on the fields of a tick, with the numbers that its doubles are. -/
structure InBounds (halfSpread : Float.Model) (tick : Json Float.Model) : Prop where
  timestamp : ∀ n, (tick.find kTimestamp).bind Json.literal? = some n → |n| ≤ 9223372036854
  volume : ∀ d, (tick.find kVolume).bind Json.number? = some d →
    ∃ v, real? d = some v ∧ RoundsToI64 v
  prices : ∀ d, (tick.find kPrice).bind Json.number? = some d →
    ∃ p h, real? d = some p ∧ real? halfSpread = some h ∧
      DollarsFit p ∧ DollarsFit (p - h) ∧ DollarsFit (p + h)

theorem literal_range {j : Json Float.Model} {n : ℤ} (h : j.literal? = some n) :
    -2 ^ 63 ≤ n ∧ n < 2 ^ 64 := by
  cases j with
  | integer m hm =>
    cases h
    exact hm
  | null | boolean | string | float | array | object => cases h

/-- **The prices of a trade** fit their ticks. -/
theorem castFits_prices_iff (d h : Float.Model) :
    (CastFits (Price.scaled d) ∧ CastFits (Price.scaled (d - h)) ∧ CastFits (Price.scaled (d + h))) ↔
      ∃ x y, real? d = some x ∧ real? h = some y ∧
        DollarsFit x ∧ DollarsFit (x - y) ∧ DollarsFit (x + y) := by
  rw [castFits_scaled_iff, castFits_scaled_iff, castFits_scaled_iff, Window.holds_sub_iff,
    Window.holds_add_iff]
  constructor
  · rintro ⟨hd, ⟨x, y, hx, hy, hsub⟩, x', y', hx', hy', hadd⟩
    rw [hx] at hx'
    rw [hy] at hy'
    cases hx'
    cases hy'
    rw [dollarsWindow.holds_iff hx] at hd
    simp only [dollarsWindow_takes_iff] at hd hsub hadd
    exact ⟨x, y, hx, hy, hd, hsub, hadd⟩
  · rintro ⟨x, y, hx, hy, hd, hsub, hadd⟩
    simp only [← dollarsWindow_takes_iff] at hd hsub hadd
    exact ⟨(dollarsWindow.holds_iff hx).mpr hd, ⟨x, y, hx, hy, hsub⟩, x, y, hx, hy, hadd⟩

theorem representable_iff (a : TradeTapeAdapter Float.Model) {tick : Json Float.Model}
    {trade : FinnhubTrade Float.Model} (h : parseTick tick = some trade) :
    Representable a tick trade ↔ InBounds a.halfSpread tick := by
  obtain ⟨-, hvolume, hprice, n, hn, hstored⟩ := parseTick_eq_some h
  obtain ⟨t, -, hliteral⟩ := Option.bind_eq_some_iff.mp hn
  have hrange := literal_range hliteral
  constructor
  · intro hr
    have hself : trade.timestampMs = n := Option.some.inj (hr.timestamp.symm.trans hn)
    refine ⟨fun m hm => ?_, fun d hd => ?_, fun d hd => ?_⟩
    · obtain rfl : n = m := Option.some.inj (hn.symm.trans hm)
      rw [← inI64_nanoseconds_iff, ← hself]
      exact hr.nanoseconds
    · obtain rfl : trade.volume = d := Option.some.inj (hvolume.symm.trans hd)
      obtain ⟨v, hv, hfits⟩ := hr.volume
      exact ⟨v, hv, (inI64_roundAway_iff v).mp hfits⟩
    · obtain rfl : trade.price = d := Option.some.inj (hprice.symm.trans hd)
      exact (castFits_prices_iff _ _).mp ⟨hr.price, hr.bid, hr.ask⟩
  · intro hb
    have hsmall := hb.timestamp n hn
    have hself : trade.timestampMs = n := by
      rw [hstored, toInt64_eq_self_iff hrange]
      have := (abs_le.mp hsmall).2
      omega
    obtain ⟨v, hv, hfits⟩ := hb.volume _ hvolume
    obtain ⟨hp, hbid, hask⟩ := (castFits_prices_iff _ _).mpr (hb.prices _ hprice)
    refine ⟨hself ▸ hn, ?_, ⟨v, hv, (inI64_roundAway_iff v).mpr hfits⟩, hp, hbid, hask⟩
    rw [hself, inI64_nanoseconds_iff]
    exact hsmall

/-- **When nothing overflows.** The trades of a message are the ticks it accepts. Of each of these
the stored timestamp is the literal and all conversions of the adapter stay within 64 bits, exactly
if every accepted tick has its fields in bounds. -/
theorem no_overflow_iff (a : TradeTapeAdapter Float.Model) (doc : Json Float.Model) :
    (∀ trade, trade ∈ (parseDocument (some doc)).trades ↔ ∃ tick, Accepts doc tick trade) ∧
    ((∀ tick trade, Accepts doc tick trade → Representable a tick trade) ↔
      ∀ tick trade, Accepts doc tick trade → InBounds a.halfSpread tick) := by
  refine ⟨fun trade => mem_trades_iff, ?_⟩
  exact forall_congr' fun tick => forall_congr' fun trade => forall_congr' fun h =>
    representable_iff a h.2

/-- A trade of ten shares at $100 with the greatest `uint64_t` for a timestamp. -/
def lateTick : Json Float.Model :=
  .object [(kSymbol, .string [65]), (kPrice, .integer 100 (by norm_num)),
    (kTimestamp, .integer (2 ^ 64 - 1) (by norm_num)), (kVolume, .integer 10 (by norm_num))]

/-- The trade message with this tick alone. -/
def lateMessage : Json Float.Model := .object [(kData, .array [lateTick]), (kType, .string kTrade)]

/-- **It is stored as minus one.** -/
theorem overflow_late :
    ¬ ∀ (a : TradeTapeAdapter Float.Model) (doc tick : Json Float.Model)
      (trade : FinnhubTrade Float.Model), Accepts doc tick trade → Representable a tick trade := by
  intro h
  have hticks : lateTick ∈ ticksOf lateMessage := by
    have : ticksOf lateMessage = [lateTick] := rfl
    rw [this]
    exact List.mem_singleton_self _
  have hr := h (.new (ofInt 1 / ofInt 50)) lateMessage lateTick ⟨[65], ofInt 100, ofInt 10, -1⟩
    ⟨hticks, rfl⟩
  cases hr.timestamp

end Lob
