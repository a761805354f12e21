import LobMarketMaker.Foundation.Bytes
import LobMarketMaker.MarketData.TradeTapeAdapter

/-!
# The feed's messages

`parse_finnhub_message` reads one text frame. The text is turned into a document by a JSON library,
which stays a parameter; the document is checked field by field, and ticks that fail a check are
skipped and counted.

* `Json`: a document as the library holds it;
* `parseTick`, `parseDocument`, `parseFinnhubMessage`: the checks in the order of the code;
* `Accepts`, `mem_trades_iff`: the ticks that become trades; `trades_add_malformed`: each tick is
  stored or counted.
-/

set_option autoImplicit false

namespace Lob

open Foundation

/-- A JSON document. A literal that fits `int64_t` or `uint64_t` is an integer, any other number a
`double`. -/
inductive Json (F : Type) where
  | null
  | boolean (b : Bool)
  | string (s : List UInt8)
  | integer (n : ℤ) (h : -2 ^ 63 ≤ n ∧ n < 2 ^ 64)
  | float (x : F)
  | array (elems : List (Json F))
  | object (members : List (List UInt8 × Json F))

namespace Json

variable {F : Type}

/-- `find`, or `contains` and `operator[]`: the member of an object. -/
def find (key : List UInt8) : Json F → Option (Json F)
  | .object members => (members.find? (·.1 = key)).map Prod.snd
  | _ => none

/-- The text, if it is a string. -/
def string? : Json F → Option (List UInt8)
  | .string s => some s
  | _ => none

/-- The elements, if it is an array. -/
def array? : Json F → Option (List (Json F))
  | .array elems => some elems
  | _ => none

/-- `get<double>`, if it is a number. -/
def number? [Double F] : Json F → Option F
  | .integer n _ => some (ofInt n)
  | .float x => some x
  | _ => none

/-- The literal, if it is an integer. -/
def literal? : Json F → Option ℤ
  | .integer n _ => some n
  | _ => none

end Json

/-- `get<int64_t>` of an integer literal: modulo `2 ^ 64`. -/
def toInt64 (n : ℤ) : ℤ := Int.bmod n (2 ^ 64)

/-- `enum class FinnhubParseStatus`. -/
inductive FinnhubParseStatus where
  | trades
  | ignored
  | malformed
  deriving DecidableEq

/-- The trades of a text and the number of ticks skipped. -/
structure FinnhubParseResult (F : Type) where
  status : FinnhubParseStatus := .malformed
  trades : List (FinnhubTrade F) := []
  malformedTicks : ℕ := 0

/-- `type`. -/
def kType : List UInt8 := [116, 121, 112, 101]

/-- `trade`. -/
def kTrade : List UInt8 := [116, 114, 97, 100, 101]

/-- `data`. -/
def kData : List UInt8 := [100, 97, 116, 97]

/-- `s`. -/
def kSymbol : List UInt8 := [115]

/-- `p`. -/
def kPrice : List UInt8 := [112]

/-- `v`. -/
def kVolume : List UInt8 := [118]

/-- `t`. -/
def kTimestamp : List UInt8 := [116]

section Parser

variable {F : Type} [Double F]

/-- The trade of a valid tick. -/
def parseTick (tick : Json F) : Option (FinnhubTrade F) := do
  let symbol ← (← tick.find kSymbol).string?
  let price ← (← tick.find kPrice).number?
  let volume ← (← tick.find kVolume).number?
  let t ← (← tick.find kTimestamp).literal?
  if ofInt 0 < price then
    return { symbol, price, volume, timestampMs := toInt64 t }
  else none

/-- The turn of the loop for one tick. -/
def FinnhubParseResult.addTick (result : FinnhubParseResult F) (tick : Json F) :
    FinnhubParseResult F :=
  match parseTick tick with
  | none => { result with malformedTicks := result.malformedTicks + 1 }
  | some trade => { result with trades := result.trades ++ [trade] }

/-- What is left of `parse_finnhub_message` once the text is parsed; `none` is a discarded text. -/
def parseDocument (doc : Option (Json F)) : FinnhubParseResult F :=
  match doc with
  | none => {}
  | some doc =>
    match (doc.find kType).bind Json.string? with
    | none => {}
    | some type =>
      if type ≠ kTrade then { status := .ignored }
      else
        match (doc.find kData).bind Json.array? with
        | none => {}
        | some data => run FinnhubParseResult.addTick { status := .trades } data

/-- `parse_finnhub_message`, over the library's parser. -/
def parseFinnhubMessage (parse : List UInt8 → Option (Json F)) (payload : List UInt8) :
    FinnhubParseResult F := parseDocument (parse payload)

/-! ### The ticks that become trades -/

/-- The ticks of a trade message. -/
def ticksOf (doc : Json F) : List (Json F) :=
  if (doc.find kType).bind Json.string? = some kTrade then
    ((doc.find kData).bind Json.array?).getD []
  else []

/-- A tick of the document is stored as the trade. -/
def Accepts (doc tick : Json F) (trade : FinnhubTrade F) : Prop :=
  tick ∈ ticksOf doc ∧ parseTick tick = some trade

theorem run_addTick (result : FinnhubParseResult F) (ticks : List (Json F)) :
    (run FinnhubParseResult.addTick result ticks).trades =
        result.trades ++ ticks.filterMap parseTick ∧
      (run FinnhubParseResult.addTick result ticks).malformedTicks =
        result.malformedTicks + ticks.countP fun tick => (parseTick tick).isNone := by
  induction ticks generalizing result with
  | nil => exact ⟨(List.append_nil _).symm, rfl⟩
  | cons tick ticks ih =>
    obtain ⟨htrades, hcount⟩ := ih (result.addTick tick)
    have hrun : run FinnhubParseResult.addTick result (tick :: ticks) =
      run FinnhubParseResult.addTick (result.addTick tick) ticks := rfl
    rw [hrun, htrades, hcount]
    cases h : parseTick tick with
    | none =>
      have hadd : result.addTick tick =
          { result with malformedTicks := result.malformedTicks + 1 } := by
        unfold FinnhubParseResult.addTick
        rw [h]
      rw [hadd, List.filterMap_cons_none h, List.countP_cons_of_pos (by rw [h]; rfl)]
      exact ⟨rfl, Nat.add_right_comm _ _ _⟩
    | some trade =>
      have hadd : result.addTick tick = { result with trades := result.trades ++ [trade] } := by
        unfold FinnhubParseResult.addTick
        rw [h]
      rw [hadd, List.filterMap_cons_some h,
        List.countP_cons_of_neg (by rw [h]; exact Bool.false_ne_true), List.append_assoc]
      exact ⟨rfl, rfl⟩

theorem parseDocument_trades (doc : Json F) :
    (parseDocument (some doc)).trades = (ticksOf doc).filterMap parseTick ∧
      (parseDocument (some doc)).malformedTicks =
        (ticksOf doc).countP fun tick => (parseTick tick).isNone := by
  unfold parseDocument ticksOf
  dsimp only
  cases (doc.find kType).bind Json.string? with
  | none => exact ⟨rfl, rfl⟩
  | some type =>
    dsimp only
    by_cases h : type = kTrade
    · rw [if_neg (not_not.mpr h), if_pos (congrArg some h)]
      cases (doc.find kData).bind Json.array? with
      | none => exact ⟨rfl, rfl⟩
      | some data =>
        obtain ⟨htrades, hcount⟩ := run_addTick { status := .trades } data
        exact ⟨htrades, hcount.trans (Nat.zero_add _)⟩
    · rw [if_pos h, if_neg fun hc => h (Option.some.inj hc)]
      exact ⟨rfl, rfl⟩

/-- **The trades of a message** are the ticks it accepts. -/
theorem mem_trades_iff {doc : Json F} {trade : FinnhubTrade F} :
    trade ∈ (parseDocument (some doc)).trades ↔ ∃ tick, Accepts doc tick trade := by
  rw [(parseDocument_trades doc).1, List.mem_filterMap]
  exact Iff.rfl

/-- **No tick is lost**: each is stored or counted. -/
theorem trades_add_malformed (doc : Json F) :
    (parseDocument (some doc)).trades.length + (parseDocument (some doc)).malformedTicks =
      (ticksOf doc).length := by
  obtain ⟨htrades, hcount⟩ := parseDocument_trades doc
  rw [htrades, hcount]
  induction ticksOf doc with
  | nil => rfl
  | cons tick ticks ih =>
    cases h : parseTick tick with
    | none =>
      rw [List.filterMap_cons_none h, List.countP_cons_of_pos (by rw [h]; rfl), List.length_cons]
      omega
    | some trade =>
      rw [List.filterMap_cons_some h, List.countP_cons_of_neg (by rw [h]; exact Bool.false_ne_true),
        List.length_cons, List.length_cons]
      omega

/-- **What a valid tick holds.** -/
theorem parseTick_eq_some {tick : Json F} {trade : FinnhubTrade F}
    (h : parseTick tick = some trade) :
    ofInt 0 < trade.price ∧
      (tick.find kVolume).bind Json.number? = some trade.volume ∧
      (tick.find kPrice).bind Json.number? = some trade.price ∧
      ∃ n, (tick.find kTimestamp).bind Json.literal? = some n ∧ trade.timestampMs = toInt64 n := by
  unfold parseTick at h
  obtain ⟨s, -, h⟩ := Option.bind_eq_some_iff.mp h
  obtain ⟨symbol, -, h⟩ := Option.bind_eq_some_iff.mp h
  obtain ⟨p, hp, h⟩ := Option.bind_eq_some_iff.mp h
  obtain ⟨price, hprice, h⟩ := Option.bind_eq_some_iff.mp h
  obtain ⟨v, hv, h⟩ := Option.bind_eq_some_iff.mp h
  obtain ⟨volume, hvolume, h⟩ := Option.bind_eq_some_iff.mp h
  obtain ⟨t, ht, h⟩ := Option.bind_eq_some_iff.mp h
  obtain ⟨n, hn, h⟩ := Option.bind_eq_some_iff.mp h
  split_ifs at h with hpos
  cases h
  rw [hp, hv, ht]
  exact ⟨hpos, hvolume, hprice, n, hn, rfl⟩

end Parser

end Lob
