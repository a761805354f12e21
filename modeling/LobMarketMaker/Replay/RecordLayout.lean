import LobMarketMaker.Replay.RoundTrip

/-!
# The documented record

The layout bounds the symbol length, pads the symbol with zeros and has named types and sides. The
reader checks none of it.

* `RecordFields`: a record, split at the documented offsets; `decodes_bytes`: what the reader makes
  of it, whatever it holds;
* `writeEvent_event`: the writer gives the fields back if the symbol field is in order;
* **`accepts_layout_iff`**: so the records that are read as documented are those that follow the
  layout.
-/

set_option autoImplicit false

namespace Lob

open Foundation

/-- The fields of a record. -/
structure RecordFields where
  timestampNs : List UInt8
  sequence : List UInt8
  symbolLen : UInt8
  symbol : List UInt8
  eventType : UInt8
  priceTicks : List UInt8
  quantity : List UInt8
  side : UInt8

namespace RecordFields

variable (f : RecordFields) {r : List UInt8}

/-- The fields have their widths. -/
structure Sized : Prop where
  timestampNs : f.timestampNs.length = 8
  sequence : f.sequence.length = 8
  symbol : f.symbol.length = 15
  priceTicks : f.priceTicks.length = 8
  quantity : f.quantity.length = 8

/-- The fields have the values the layout allows. -/
structure Follows : Prop where
  symbolLen : f.symbolLen.toNat ≤ 15
  /-- Zero bytes past the symbol. -/
  padding : ∀ b ∈ f.symbol.drop f.symbolLen.toNat, b = 0
  /-- One of the five types. -/
  eventType : f.eventType < 5
  /-- One of the two sides. -/
  side : f.side < 2

/-- The fields in their order on disk. -/
def bytes : List UInt8 :=
  f.timestampNs ++ (f.sequence ++ ([f.symbolLen] ++ (f.symbol ++ ([f.eventType] ++
    (f.priceTicks ++ (f.quantity ++ [f.side]))))))

/-- The fields at the documented offsets. -/
def ofBytes (r : List UInt8) : RecordFields where
  timestampNs := r.take 8
  sequence := (r.drop 8).take 8
  symbolLen := (r.drop 16).headD 0
  symbol := (r.drop 17).take 15
  eventType := (r.drop 32).headD 0
  priceTicks := (r.drop 33).take 8
  quantity := (r.drop 41).take 8
  side := (r.drop 49).headD 0

/-- The event that the reader makes of the fields. -/
def event : MarketEvent where
  timestamp := toI64 (ofLeBytes f.timestampNs)
  sequence := ofLeBytes f.sequence
  symbol := .ofView (f.symbol.take f.symbolLen.toNat)
  type := .ofRaw f.eventType
  price := .fromTicks (toI64 (ofLeBytes f.priceTicks))
  quantity := toI64 (ofLeBytes f.quantity)
  side := .ofRaw f.side

theorem sized_ofBytes (hr : r.length = kRecordSize) : (ofBytes r).Sized := by
  unfold kRecordSize at hr
  constructor <;> simp only [ofBytes, List.length_take, List.length_drop] <;> omega

theorem headD_append_drop {n : ℕ} (hn : n < r.length) :
    [(r.drop n).headD 0] ++ r.drop (n + 1) = r.drop n := by
  rw [List.drop_eq_getElem_cons hn]
  rfl

theorem take_append_drop (n k : ℕ) (r : List UInt8) :
    (r.drop n).take k ++ r.drop (n + k) = r.drop n := by
  rw [← List.drop_drop, List.take_append_drop]

/-- **The split loses nothing.** -/
theorem bytes_ofBytes (hr : r.length = kRecordSize) : (ofBytes r).bytes = r := by
  unfold kRecordSize at hr
  have hside : [(r.drop 49).headD 0] = r.drop 49 := by
    have h := headD_append_drop (r := r) (n := 49) (by omega)
    have hnil : r.drop 50 = [] := List.drop_of_length_le hr.le
    rwa [hnil, List.append_nil] at h
  calc (ofBytes r).bytes
      = r.take 8 ++ ((r.drop 8).take 8 ++ ([(r.drop 16).headD 0] ++ ((r.drop 17).take 15 ++
          ([(r.drop 32).headD 0] ++ ((r.drop 33).take 8 ++ ((r.drop 41).take 8 ++
            r.drop 49)))))) := by rw [← hside]; rfl
    _ = r.take 8 ++ ((r.drop 8).take 8 ++ ([(r.drop 16).headD 0] ++ ((r.drop 17).take 15 ++
          ([(r.drop 32).headD 0] ++ r.drop 33)))) := by
      rw [take_append_drop 41 8 r, take_append_drop 33 8 r]
    _ = r.take 8 ++ ((r.drop 8).take 8 ++ ([(r.drop 16).headD 0] ++ r.drop 17)) := by
      rw [headD_append_drop (n := 32) (by omega), take_append_drop 17 15 r]
    _ = r := by
      rw [headD_append_drop (n := 16) (by omega), take_append_drop 8 8 r, List.take_append_drop]

variable {f}

theorem decodes_bytes (h : f.Sized) : Decodes readEvent f.bytes f.event := by
  have u64 : ∀ {l : List UInt8}, l.length = 8 → Decodes getU64 l (ofLeBytes l) := fun hl =>
    (decodes_takeBytes hl).map ofLeBytes
  have i64 : ∀ {l : List UInt8}, l.length = 8 → Decodes getI64 l (toI64 (ofLeBytes l)) := fun hl =>
    (decodes_takeBytes hl).map fun l => toI64 (ofLeBytes l)
  refine (u64 h.timestampNs).bind ?_
  refine (u64 h.sequence).bind ?_
  refine (decodes_getU8 f.symbolLen).bind ?_
  refine (decodes_takeBytes h.symbol).bind ?_
  refine (decodes_getU8 f.eventType).bind ?_
  refine (i64 h.priceTicks).bind ?_
  refine (i64 h.quantity).bind ?_
  exact (decodes_getU8 f.side).map fun sideRaw => (({
    timestamp := toI64 (ofLeBytes f.timestampNs)
    sequence := ofLeBytes f.sequence
    symbol := .ofView (f.symbol.take f.symbolLen.toNat)
    type := .ofRaw f.eventType
    price := .fromTicks (toI64 (ofLeBytes f.priceTicks))
    quantity := toI64 (ofLeBytes f.quantity)
    side := .ofRaw sideRaw }) : MarketEvent)

theorem putU64_ofLeBytes {l : List UInt8} (hl : l.length = 8) : putU64 (ofLeBytes l) = l := by
  have h := leBytes_ofLeBytes l
  rwa [hl] at h

theorem putI64_ofLeBytes {l : List UInt8} (hl : l.length = 8) :
    putI64 (toI64 (ofLeBytes l)) = l := by
  have hlt := ofLeBytes_lt l
  rw [hl] at hlt
  rw [putI64, ofI64_toI64 (by omega)]
  exact putU64_ofLeBytes hl

theorem symbolField_event (h : f.Sized) (hf : f.Follows) :
    (f.event.symbol.view.length = f.symbolLen.toNat) ∧ symbolField f.event.symbol = f.symbol := by
  have hlen := hf.symbolLen
  have hsize := h.symbol
  have hview : f.event.symbol.view = f.symbol.take f.symbolLen.toNat := by
    show (f.symbol.take f.symbolLen.toNat).take 15 = _
    rw [List.take_take, min_eq_right hlen]
  have hviewlen : f.event.symbol.view.length = f.symbolLen.toNat := by
    rw [hview, List.length_take]
    omega
  have hpad : f.symbol.drop f.symbolLen.toNat = List.replicate (15 - f.symbolLen.toNat) 0 := by
    rw [List.eq_replicate_iff, List.length_drop, hsize]
    exact ⟨rfl, hf.padding⟩
  refine ⟨hviewlen, ?_⟩
  rw [symbolField, hviewlen, min_eq_left hlen, ← hpad, hview, List.take_take, min_self,
    List.take_append_drop]

theorem raw_ofRaw_type {b : UInt8} (h : b < 5) : (EventType.ofRaw b).raw = b := by
  have named : ∀ b : UInt8, b < 5 → b = 0 ∨ b = 1 ∨ b = 2 ∨ b = 3 ∨ b = 4 := by
    intro b hb
    have hn : ∀ n < 5, n = 0 ∨ n = 1 ∨ n = 2 ∨ n = 3 ∨ n = 4 := by omega
    simp only [← UInt8.toNat_inj]
    exact hn b.toNat (UInt8.lt_iff_toNat_lt.mp hb)
  rcases named b h with rfl | rfl | rfl | rfl | rfl <;> rfl

theorem raw_ofRaw_side {b : UInt8} (h : b < 2) : (Side.ofRaw b).raw = b := by
  have named : ∀ b : UInt8, b < 2 → b = 0 ∨ b = 1 := by
    intro b hb
    have hn : ∀ n < 2, n = 0 ∨ n = 1 := by omega
    simp only [← UInt8.toNat_inj]
    exact hn b.toNat (UInt8.lt_iff_toNat_lt.mp hb)
  rcases named b h with rfl | rfl <;> rfl

/-- **A record that follows the layout is written back.** -/
theorem writeEvent_event (h : f.Sized) (hf : f.Follows) : writeEvent f.event = f.bytes := by
  obtain ⟨hlen, hsymbol⟩ := symbolField_event h hf
  have hbyte : UInt8.ofNat (min f.event.symbol.view.length 15) = f.symbolLen := by
    rw [hlen, min_eq_left hf.symbolLen, UInt8.ofNat_toNat]
  have htimestamp : putI64 f.event.timestamp = f.timestampNs := by
    dsimp only [event]
    exact putI64_ofLeBytes h.timestampNs
  have hsequence : putU64 f.event.sequence = f.sequence := putU64_ofLeBytes h.sequence
  have hprice : putI64 f.event.price.ticks = f.priceTicks := by
    dsimp only [event, Price.fromTicks]
    exact putI64_ofLeBytes h.priceTicks
  have hquantity : putI64 f.event.quantity = f.quantity := by
    dsimp only [event]
    exact putI64_ofLeBytes h.quantity
  have htype : f.event.type.raw = f.eventType := raw_ofRaw_type hf.eventType
  have hside : f.event.side.raw = f.side := raw_ofRaw_side hf.side
  calc writeEvent f.event
      = putI64 f.event.timestamp ++ (putU64 f.event.sequence ++
          (putU8 (UInt8.ofNat (min f.event.symbol.view.length 15)) ++ (symbolField f.event.symbol ++
            (putU8 f.event.type.raw ++ (putI64 f.event.price.ticks ++ (putI64 f.event.quantity ++
              putU8 f.event.side.raw)))))) := rfl
    _ = f.bytes := by
      rw [htimestamp, hsequence, hbyte, hsymbol, htype, hprice, hquantity, hside]
      rfl

end RecordFields

/-- The record follows the documented layout. -/
def FollowsLayout (r : List UInt8) : Prop :=
  r.length = kRecordSize ∧ (RecordFields.ofBytes r).Follows

/-- `read_event` on a stream of these bytes. -/
def decodeRecord (r : List UInt8) : Option MarketEvent := (readEvent r).map Prod.fst

theorem decodeRecord_eq {r : List UInt8} (hr : r.length = kRecordSize) :
    decodeRecord r = some (RecordFields.ofBytes r).event := by
  have h := RecordFields.decodes_bytes (RecordFields.sized_ofBytes hr) []
  rw [List.append_nil, RecordFields.bytes_ofBytes hr] at h
  rw [decodeRecord, h]
  rfl

/-- **The records that are read as documented.** Reading a record succeeds exactly if it follows the
layout, and then writing the event gives it back, if and only if it does follow the layout: every
other string of 50 bytes is read too. -/
theorem accepts_layout_iff (r : List UInt8) (hr : r.length = kRecordSize) :
    (((∃ ev, decodeRecord r = some ev) ↔ FollowsLayout r) ∧
      ∀ ev, decodeRecord r = some ev → writeEvent ev = r) ↔ FollowsLayout r := by
  have hdecode := decodeRecord_eq hr
  constructor
  · exact fun h => h.1.mp ⟨_, hdecode⟩
  · intro h
    refine ⟨⟨fun _ => h, fun _ => ⟨_, hdecode⟩⟩, fun ev hev => ?_⟩
    obtain rfl : (RecordFields.ofBytes r).event = ev := Option.some.inj (hdecode.symm.trans hev)
    rw [RecordFields.writeEvent_event (RecordFields.sized_ofBytes hr) h.2,
      RecordFields.bytes_ofBytes hr]

/-- 50 bytes of which none is zero. -/
def junk : List UInt8 := List.replicate kRecordSize 255

/-- **Junk is read as an event.** -/
theorem accepts_junk :
    ¬ ∀ r : List UInt8, r.length = kRecordSize →
      ((∃ ev, decodeRecord r = some ev) ↔ FollowsLayout r) ∧
        ∀ ev, decodeRecord r = some ev → writeEvent ev = r := by
  intro h
  have hlen : junk.length = kRecordSize := List.length_replicate
  have hlayout := (h junk hlen).1.mp ⟨_, decodeRecord_eq hlen⟩
  exact absurd hlayout.2.symbolLen (by decide)

/-- A quote of `A`, as the writer encodes it. -/
def quoteRecord : List UInt8 := writeEvent (.makeQuote 1 2 (.ofView [65]) .sell (.fromTicks 100) 5)

theorem accepts_quoteRecord :
    ((∃ ev, decodeRecord quoteRecord = some ev) ↔ FollowsLayout quoteRecord) ∧
      ∀ ev, decodeRecord quoteRecord = some ev → writeEvent ev = quoteRecord :=
  (accepts_layout_iff quoteRecord (length_writeEvent _)).mpr
    ⟨length_writeEvent _, by decide +kernel, by decide +kernel, by decide +kernel,
      by decide +kernel⟩

end Lob
