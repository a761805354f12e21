import LobMarketMaker.Foundation.Bytes
import LobMarketMaker.MarketData.Events

/-!
# The binary event log

An 8-byte header followed by records of `kRecordSize` bytes, one per event, each field written in
little-endian order.

* `writeEvent`, `readEvent`: the codec of one record; the reader stops after the first field that
  the stream cannot fill;
* `writeEventsToFile`, `readEventsFromFile`: whole files. A path that cannot be opened is `none`
  (reading) or `false` (writing).
-/

set_option autoImplicit false

namespace Lob

open Foundation

/-- `put_u64`. -/
def putU64 (v : ℕ) : List UInt8 := leBytes 8 v

/-- `put_i64`. -/
def putI64 (v : ℤ) : List UInt8 := leBytes 8 (ofI64 v)

/-- `put_u8`. -/
def putU8 (v : UInt8) : List UInt8 := [v]

/-- `get_u64`. -/
def getU64 : Reader ℕ := do return ofLeBytes (← takeBytes 8)

/-- `get_i64`. -/
def getI64 : Reader ℤ := do return toI64 (ofLeBytes (← takeBytes 8))

/-- `get_u8`. -/
def getU8 : Reader UInt8 := do return (← takeBytes 1).headD 0

/-- `LOBEVT01`. -/
def kEventLogMagic : List UInt8 := [76, 79, 66, 69, 86, 84, 48, 49]

/-- The bytes of a record. -/
def kRecordSize : ℕ := 50

/-- `write_magic`. -/
def writeMagic : List UInt8 := kEventLogMagic

/-- `read_and_check_magic`. -/
def readAndCheckMagic : Reader Bool := do return (← takeBytes kEventLogMagic.length) == kEventLogMagic

/-- `write_event`: the symbol padded with zeros to fifteen bytes. -/
def writeEvent (ev : MarketEvent) : List UInt8 :=
  let sym := ev.symbol.view
  let len := min sym.length 15
  putU64 (ofI64 ev.timestamp) ++
    (putU64 ev.sequence ++
      (putU8 (UInt8.ofNat len) ++
        ((sym.take len ++ List.replicate (15 - len) 0) ++
          (putU8 ev.type.raw ++
            (putI64 ev.price.ticks ++
              (putI64 ev.quantity ++ putU8 ev.side.raw))))))

/-- `read_event`: type, side and symbol length are not validated. -/
def readEvent : Reader MarketEvent := do
  let tsNs ← getU64
  let seq ← getU64
  let len ← getU8
  let padded ← takeBytes 15
  let typeRaw ← getU8
  let priceTicks ← getI64
  let qty ← getI64
  let sideRaw ← getU8
  return {
    timestamp := toI64 tsNs
    sequence := seq
    symbol := .ofView (padded.take len.toNat)
    type := .ofRaw typeRaw
    price := .fromTicks priceTicks
    quantity := qty
    side := .ofRaw sideRaw }

/-- The contents of the file written, or the error thrown. -/
def writeEventsToFile (path : String) (opens : Bool) (events : List MarketEvent) :
    Except String (List UInt8) :=
  if opens then .ok (writeMagic ++ events.flatMap writeEvent)
  else .error ("failed to open event log for writing: " ++ path)

/-- The events read from a file's contents, or the error thrown. -/
def readEventsFromFile (path : String) (contents : Option (List UInt8)) :
    Except String (List MarketEvent) :=
  match contents with
  | none => .error ("failed to open event log for reading: " ++ path)
  | some bytes =>
    match readAndCheckMagic bytes with
    | some (true, rest) => .ok (readMany readEvent rest)
    | _ => .error ("invalid or missing magic header in event log: " ++ path)

end Lob
