import LobMarketMaker.Replay.EventCodec

/-!
# Round trip of the event log

Writer and reader agree field by field (`decodes_getU64`, `decodes_getI64`, `decodes_getU8`), so a
record decodes to its event (`decodes_readEvent`) and a read takes exactly one record
(`consumes_readEvent`). **`readEventsFromFile_take`**: a file cut after `m` bytes yields the events
whose records are complete, and an error when even the header is cut.
-/

set_option autoImplicit false

namespace Lob

open Foundation

/-- The integers of an event fit the fixed-width types of the source. -/
structure MarketEvent.Fits (ev : MarketEvent) : Prop where
  timestamp : InI64 ev.timestamp
  sequence : ev.sequence < 2 ^ 64
  price : InI64 ev.price.ticks
  quantity : InI64 ev.quantity

/-- An event as the source can hold it. -/
abbrev CxxEvent : Type := { ev : MarketEvent // ev.Fits }

/-! ### Fields -/

theorem decodes_getU64 {v : ℕ} (hv : v < 2 ^ 64) : Decodes getU64 (putU64 v) v := by
  have h : Decodes getU64 (putU64 v) _ := (decodes_takeBytes (length_leBytes 8 v)).map ofLeBytes
  rwa [ofLeBytes_leBytes, Nat.mod_eq_of_lt (by omega)] at h

theorem decodes_getI64 {x : ℤ} (hx : InI64 x) : Decodes getI64 (putI64 x) x := by
  have h : Decodes getI64 (putI64 x) _ :=
    (decodes_takeBytes (length_leBytes 8 (ofI64 x))).map fun l => toI64 (ofLeBytes l)
  have hlt := ofI64_lt x
  rwa [ofLeBytes_leBytes, Nat.mod_eq_of_lt (by omega), toI64_ofI64 hx] at h

theorem decodes_getU8 (v : UInt8) : Decodes getU8 (putU8 v) v :=
  (decodes_takeBytes (n := 1) rfl).map fun l => l.headD 0

/-! ### Records -/

/-- The symbol field holds the symbol's characters and then zeros. -/
def symbolField (sym : Symbol) : List UInt8 :=
  sym.view.take (min sym.view.length 15) ++ List.replicate (15 - min sym.view.length 15) 0

theorem length_symbolField (sym : Symbol) : (symbolField sym).length = 15 := by
  have := sym.len_le
  unfold symbolField
  rw [List.length_append, List.length_take, List.length_replicate]
  omega

theorem ofView_symbolField (sym : Symbol) :
    Symbol.ofView ((symbolField sym).take (UInt8.ofNat (min sym.view.length 15)).toNat) = sym := by
  have hlen := sym.len_le
  have hmin : min sym.view.length 15 = sym.view.length := min_eq_left hlen
  have hbyte : (UInt8.ofNat sym.view.length).toNat = sym.view.length := by
    rw [UInt8.toNat_ofNat']; omega
  rw [symbolField, hmin, hbyte, List.take_length, List.take_left]
  exact sym.ofView_view

/-- **A record decodes to its event.** -/
theorem decodes_readEvent {ev : MarketEvent} (h : ev.Fits) :
    Decodes readEvent (writeEvent ev) ev := by
  have hts : toI64 (ofI64 ev.timestamp) = ev.timestamp := toI64_ofI64 h.timestamp
  refine (decodes_getU64 (ofI64_lt ev.timestamp)).bind ?_
  refine (decodes_getU64 h.sequence).bind ?_
  refine (decodes_getU8 _).bind ?_
  refine (decodes_takeBytes (length_symbolField ev.symbol)).bind ?_
  refine (decodes_getU8 _).bind ?_
  refine (decodes_getI64 h.price).bind ?_
  refine (decodes_getI64 h.quantity).bind ?_
  have hside := (decodes_getU8 ev.side.raw).map fun sideRaw => (({
    timestamp := toI64 (ofI64 ev.timestamp)
    sequence := ev.sequence
    symbol := .ofView ((symbolField ev.symbol).take
      (UInt8.ofNat (min ev.symbol.view.length 15)).toNat)
    type := .ofRaw ev.type.raw
    price := .fromTicks ev.price.ticks
    quantity := ev.quantity
    side := .ofRaw sideRaw }) : MarketEvent)
  rw [hts, ofView_symbolField, EventType.ofRaw_raw, Side.ofRaw_raw] at hside
  rw [hts, ofView_symbolField, EventType.ofRaw_raw]
  exact hside

theorem length_writeEvent (ev : MarketEvent) : (writeEvent ev).length = kRecordSize := by
  have h := length_symbolField ev.symbol
  unfold symbolField at h
  unfold writeEvent
  simp only [List.length_append, putU64, putI64, putU8, length_leBytes, List.length_cons,
    List.length_nil, kRecordSize] at h ⊢
  omega

theorem consumes_getU64 : Consumes getU64 8 := (consumes_takeBytes 8).map _

theorem consumes_getI64 : Consumes getI64 8 := (consumes_takeBytes 8).map _

theorem consumes_getU8 : Consumes getU8 1 := (consumes_takeBytes 1).map _

/-- **A successful read takes one record**; it fails on a shorter stream, after whatever field. -/
theorem consumes_readEvent : Consumes readEvent kRecordSize :=
  consumes_getU64.bind fun _ => consumes_getU64.bind fun _ => consumes_getU8.bind fun _ =>
    (consumes_takeBytes 15).bind fun _ => consumes_getU8.bind fun _ =>
      consumes_getI64.bind fun _ => consumes_getI64.bind fun _ => consumes_getU8.map _

/-! ### Files -/

theorem readAndCheckMagic_writeMagic (rest : List UInt8) :
    readAndCheckMagic (writeMagic ++ rest) = some (true, rest) := by
  have h := (decodes_takeBytes (l := kEventLogMagic) rfl).map (fun l => l == kEventLogMagic)
  exact h rest

theorem readAndCheckMagic_short {s : List UInt8} (hs : s.length < 8) : readAndCheckMagic s = none :=
  ((consumes_takeBytes 8).map fun l => l == kEventLogMagic).eq_none hs

/-- The bytes of a log. -/
def logBytes (evs : List MarketEvent) : List UInt8 := writeMagic ++ evs.flatMap writeEvent

theorem length_logBytes (evs : List MarketEvent) :
    (logBytes evs).length = 8 + 50 * evs.length := by
  have h : ∀ l : List MarketEvent, (l.flatMap writeEvent).length = 50 * l.length := by
    intro l
    induction l with
    | nil => rfl
    | cons ev l ih =>
      rw [List.flatMap_cons, List.length_append, ih, length_writeEvent, List.length_cons,
        kRecordSize]
      omega
  rw [logBytes, List.length_append, h]
  rfl

theorem readEventsFromFile_logBytes_take (path : String) {evs : List MarketEvent}
    (hevs : ∀ ev ∈ evs, ev.Fits) {m : ℕ} (hm : 8 ≤ m) :
    readEventsFromFile path (some ((logBytes evs).take m)) = .ok (evs.take ((m - 8) / 50)) := by
  have hsplit : (logBytes evs).take m = writeMagic ++ (evs.flatMap writeEvent).take (m - 8) := by
    rw [logBytes, List.take_append, List.take_of_length_le hm]
    rfl
  have hmany := readMany_take (by decide) consumes_readEvent evs
    (fun ev hev => ⟨decodes_readEvent (hevs ev hev), length_writeEvent ev⟩) (m - 8)
  unfold readEventsFromFile
  rw [hsplit]
  dsimp only
  rw [readAndCheckMagic_writeMagic]
  exact congrArg Except.ok hmany

theorem readEventsFromFile_short (path : String) {bytes : List UInt8} (h : bytes.length < 8) :
    readEventsFromFile path (some bytes) =
      .error ("invalid or missing magic header in event log: " ++ path) := by
  unfold readEventsFromFile
  dsimp only
  rw [readAndCheckMagic_short h]

/-- **Round trip with truncation.** Of a log cut to `m` bytes the reader returns the events whose
records are complete; it throws when the header is cut; the whole log gives every event back. -/
theorem readEventsFromFile_take (path : String) (evs : List CxxEvent) :
    ∃ bytes, writeEventsToFile path true (evs.map Subtype.val) = .ok bytes ∧
      bytes.length = 8 + 50 * evs.length ∧
      (∀ m, readEventsFromFile path (some (bytes.take m)) =
        if m < 8 then .error ("invalid or missing magic header in event log: " ++ path)
        else .ok ((evs.map Subtype.val).take ((m - 8) / 50))) ∧
      readEventsFromFile path (some bytes) = .ok (evs.map Subtype.val) := by
  have hfits : ∀ ev ∈ evs.map Subtype.val, ev.Fits := by
    intro ev hev
    obtain ⟨e, -, rfl⟩ := List.mem_map.mp hev
    exact e.2
  have hlen : (logBytes (evs.map Subtype.val)).length = 8 + 50 * evs.length := by
    rw [length_logBytes, List.length_map]
  refine ⟨logBytes (evs.map Subtype.val), rfl, hlen, fun m => ?_, ?_⟩
  · split_ifs with hm
    · exact readEventsFromFile_short path (by rw [List.length_take]; omega)
    · exact readEventsFromFile_logBytes_take path hfits (by omega)
  · have hfull := readEventsFromFile_logBytes_take path hfits
      (m := (logBytes (evs.map Subtype.val)).length) (by omega)
    rw [List.take_length, hlen] at hfull
    rw [hfull, List.take_of_length_le]
    rw [List.length_map]; omega

end Lob
