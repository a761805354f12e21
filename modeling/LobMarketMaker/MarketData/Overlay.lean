import LobMarketMaker.Foundation.RoundAway
import LobMarketMaker.MarketData.TradeTapeAdapter
import LobMarketMaker.OrderBook.LastWriter

/-!
# The overlay never crosses

* `Holds b o`: the book has on each side the level `o` names, or none;
* `Emitted R sym s o`: so has the book of the events emitted so far, the two sides of the book stand
  in the relation `R` after every prefix of them, and their sequence numbers are consecutive;
  `Emitted.push`: what one more event has to establish;
* `Emitted.onTrade`: a trade moves both levels to its own price; `onTrades_emitted`: any tape whose
  trades are quoted in the relation `R`;
* `PricesFit`, `ShowsTrade`, `showsTrade_iff`: a trade whose prices fit their ticks, a book that
  shows it;
* `OverlayKept`, **`overlay_kept_iff`**: the tapes whose overlay never crosses.
-/

set_option autoImplicit false

namespace Lob

open Foundation OrderBook

/-- A book of at most one level on each side. -/
abbrev Overlay := BookSide → Option BookLevel

namespace Overlay

variable {o : Overlay}

/-- The bid is below the ask. -/
def Uncrossed (o : Overlay) : Prop :=
  ∀ b a, o .bid = some b → o .ask = some a → b.price < a.price

/-- A bid and an ask stand in the relation. -/
def Pairs (R : Price → Price → Prop) (o : Overlay) : Prop :=
  ∀ b a, o .bid = some b → o .ask = some a → R b.price a.price

/-- What there is on a side stands at the price. -/
def At (o : Overlay) (s : BookSide) (px : Price) : Prop := ∀ lvl, o s = some lvl → lvl.price = px

/-- The overlay with the level of one side replaced. -/
def put (o : Overlay) (s : BookSide) (lvl : Option BookLevel) : Overlay :=
  fun t => if t = s then lvl else o t

@[simp] theorem put_self (o : Overlay) (s : BookSide) (lvl : Option BookLevel) :
    o.put s lvl s = lvl := if_pos rfl

@[simp] theorem put_other (o : Overlay) (s : BookSide) (lvl : Option BookLevel) :
    o.put s lvl s.other = o s.other := by cases s <;> rfl

end Overlay

/-! ## The book of an overlay -/

/-- The levels of the book are those of the overlay. -/
def Holds (b : OrderBook) (o : Overlay) : Prop :=
  b.Ordered ∧ ∀ s lvl, lvl ∈ b.levels s ↔ o s = some lvl

namespace Holds

variable {b : OrderBook} {o o' : Overlay}

theorem levels_eq (h : Holds b o) (s : BookSide) : b.levels s = (o s).toList := by
  refine sorted_unique (h.1 s) ?_ fun lvl => ?_
  · cases o s with
    | none => exact sorted_nil _ _
    | some l => exact List.pairwise_singleton _ _
  · rw [h.2, Option.mem_toList]

theorem bestBid_eq (h : Holds b o) : b.bestBid = (o .bid).map BookLevel.price := by
  have hl : b.bids = (o .bid).toList := h.levels_eq .bid
  unfold bestBid
  rw [hl]
  cases o .bid <;> rfl

theorem bestAsk_eq (h : Holds b o) : b.bestAsk = (o .ask).map BookLevel.price := by
  have hl : b.asks = (o .ask).toList := h.levels_eq .ask
  unfold bestAsk
  rw [hl]
  cases o .ask <;> rfl

theorem crossed_eq (h : Holds b o) (ho : o.Uncrossed) : b.crossed = false := by
  unfold crossed
  rw [h.bestBid_eq, h.bestAsk_eq]
  cases hb : o .bid with
  | none => rfl
  | some bid =>
    cases ha : o .ask with
    | none => rfl
    | some ask => exact decide_eq_false (not_le.mpr (ho bid ask hb ha))

theorem apply (h : Holds b o) {ev : MarketEvent}
    (hev : ∀ s lvl, LevelAfter ev s lvl (o s = some lvl) ↔ o' s = some lvl) :
    Holds (b.apply ev) o' := by
  refine ⟨h.1.apply ev, fun s lvl => ?_⟩
  rw [mem_apply h.1, ← hev]
  unfold LevelAfter
  rw [h.2]

end Holds

section Events

variable (o : Overlay) (ts : Timestamp) (seq : SequenceNumber) (sym : Symbol) (side : Side)
  (px : Price) (s : BookSide) (lvl : BookLevel)

theorem levelAfter_makeTrade (qty : Quantity) (old : Prop) :
    LevelAfter (.makeTrade ts seq sym side px qty) s lvl old ↔ old := by
  simp [LevelAfter, MarketEvent.makeTrade, MarketEvent.Writes]

theorem levelAfter_makeQuote {qty : Quantity} (hq : qty ≠ 0) (ho : o.At side.book px) :
    LevelAfter (.makeQuote ts seq sym side px qty) s lvl (o s = some lvl) ↔
      o.put side.book (some ⟨px, qty⟩) s = some lvl := by
  unfold LevelAfter Overlay.put
  rw [if_neg (by simp [MarketEvent.makeQuote])]
  by_cases hs : s = side.book
  · rw [if_pos hs]
    by_cases hp : lvl.price = px
    · rw [if_pos (MarketEvent.writes_makeQuote.mpr ⟨hs, hp⟩)]
      constructor
      · rintro ⟨-, rfl, -⟩
        exact congrArg some (BookLevel.ext hp.symm rfl)
      · rintro ⟨⟩
        exact ⟨rfl, rfl, hq⟩
    · rw [if_neg fun h => hp (MarketEvent.writes_makeQuote.mp h).2]
      constructor
      · exact fun h => absurd (ho lvl (hs ▸ h)) hp
      · rintro ⟨⟩
        exact absurd rfl hp
  · rw [if_neg fun h => hs (MarketEvent.writes_makeQuote.mp h).1, if_neg hs]

theorem levelAfter_makeDelete (ho : o.At side.book px) :
    LevelAfter (.makeDelete ts seq sym side px) s lvl (o s = some lvl) ↔
      o.put side.book none s = some lvl := by
  unfold LevelAfter Overlay.put
  rw [if_neg (by simp [MarketEvent.makeDelete])]
  by_cases hs : s = side.book
  · rw [if_pos hs]
    by_cases hp : lvl.price = px
    · rw [if_pos (MarketEvent.writes_makeDelete.mpr ⟨hs, hp⟩)]
      simp [MarketEvent.makeDelete]
    · rw [if_neg fun h => hp (MarketEvent.writes_makeDelete.mp h).2]
      constructor
      · exact fun h => absurd (ho lvl (hs ▸ h)) hp
      · intro h
        cases h
  · rw [if_neg fun h => hs (MarketEvent.writes_makeDelete.mp h).1, if_neg hs]

end Events

namespace TradeTapeAdapter

/-! ## The events of a tape -/

variable {F : Type} {R : Price → Price → Prop} {sym : Symbol} {half : F}
  {s : List MarketEvent × TradeTapeAdapter F} {o o' : Overlay}

/-- The events emitted so far: consecutive, leading to the overlay, and through overlays whose sides
stand in the relation. -/
structure Emitted (R : Price → Price → Prop) (sym : Symbol)
    (s : List MarketEvent × TradeTapeAdapter F) (o : Overlay) : Prop where
  seq : s.2.seq = s.1.length + 1
  sequences : s.1.map MarketEvent.sequence = List.range' 1 s.1.length
  holds : Holds (OrderBook.after sym s.1) o
  pairs : o.Pairs R
  prefixes : ∀ pre, pre <+: s.1 → ∃ o', Holds (OrderBook.after sym pre) o' ∧ o'.Pairs R

theorem Emitted.push (o' : Overlay) (make : SequenceNumber → MarketEvent) (h : Emitted R sym s o)
    (hseq : (make s.2.seq).sequence = s.2.seq)
    (hev : ∀ t lvl, LevelAfter (make s.2.seq) t lvl (o t = some lvl) ↔ o' t = some lvl)
    (ho : o'.Pairs R) : Emitted R sym (push s make) o' := by
  have hholds : Holds (OrderBook.after sym (s.1 ++ [make s.2.seq])) o' := by
    rw [OrderBook.after, run_concat]
    exact h.holds.apply hev
  refine ⟨?_, ?_, hholds, ho, fun pre hpre => ?_⟩
  · show s.2.seq + 1 = (s.1 ++ [make s.2.seq]).length + 1
    rw [List.length_append, h.seq]
    rfl
  · show (s.1 ++ [make s.2.seq]).map MarketEvent.sequence =
      List.range' 1 (s.1 ++ [make s.2.seq]).length
    rw [List.map_append, h.sequences, List.map_singleton, hseq, h.seq, List.length_append,
      List.length_singleton, List.range'_concat, one_mul, Nat.add_comm]
  · rcases List.prefix_concat_iff.mp hpre with rfl | hpre
    · exact ⟨o', hholds, ho⟩
    · exact h.prefixes pre hpre

/-- **Deleting the old level of a side** leaves there at most a level at the new price. -/
theorem Emitted.pushDelete (h : Emitted R sym s o) (ts : Timestamp) (symbol : Symbol) (side : Side)
    (new : Price) : ∃ o', Emitted R sym
        (pushDelete ts symbol side ((o side.book).map BookLevel.price) new s) o' ∧
      o'.At side.book new ∧ o' side.book.other = o side.book.other := by
  cases ho : o side.book with
  | none =>
    refine ⟨o, h, fun lvl hlvl => ?_, rfl⟩
    rw [ho] at hlvl
    cases hlvl
  | some old =>
    have hat : o.At side.book old.price := by
      intro lvl hlvl
      rw [ho] at hlvl
      cases hlvl
      rfl
    by_cases hpx : old.price = new
    · refine ⟨o, ?_, hpx ▸ hat, rfl⟩
      rw [Option.map_some, TradeTapeAdapter.pushDelete, if_neg (not_not.mpr hpx)]
      exact h
    · refine ⟨o.put side.book none, ?_, ?_, o.put_other _ _⟩
      · rw [Option.map_some, TradeTapeAdapter.pushDelete, if_pos hpx]
        refine h.push _ _ rfl (fun t lvl => levelAfter_makeDelete o _ _ _ side _ t lvl hat) ?_
        intro b a hb ha
        cases hs : side.book <;> rw [hs] at hb ha
        · cases hb
        · cases ha
      · intro lvl hlvl
        rw [Overlay.put_self] at hlvl
        cases hlvl

theorem pushDelete_halfSpread (ts : Timestamp) (symbol : Symbol) (side : Side) (old : Option Price)
    (new : Price) : (pushDelete ts symbol side old new s).2.halfSpread = s.2.halfSpread := by
  unfold TradeTapeAdapter.pushDelete
  cases old with
  | none => rfl
  | some px =>
    dsimp only
    split_ifs <;> rfl

section Appended

variable (s)

theorem prefix_push (make : SequenceNumber → MarketEvent) : s.1 <+: (push s make).1 :=
  List.prefix_append _ _

theorem prefix_pushDelete (ts : Timestamp) (symbol : Symbol) (side : Side) (old : Option Price)
    (new : Price) : s.1 <+: (pushDelete ts symbol side old new s).1 := by
  unfold TradeTapeAdapter.pushDelete
  cases old with
  | none => exact List.prefix_rfl
  | some px =>
    dsimp only
    split
    · exact prefix_push s _
    · exact List.prefix_rfl

variable [Double F] (trade : FinnhubTrade F)

theorem onTrade_quotes : ∃ earlier seq seq', s.1 <+: earlier ∧
    (onTrade s trade).1 = earlier ++
      [.makeQuote (nanoseconds trade) seq (Symbol.ofView trade.symbol) .buy
        (s.2.newBid trade) (quantity trade)] ++
      [.makeQuote (nanoseconds trade) seq' (Symbol.ofView trade.symbol) .sell
        (s.2.newAsk trade) (quantity trade)] := by
  have h₁ := prefix_push
    (s.1, { s.2 with lastPrice := some trade.price, lastSide := s.2.inferSide trade })
    fun seq => .makeTrade (nanoseconds trade) seq (Symbol.ofView trade.symbol)
      (s.2.inferSide trade) (Price.fromDouble trade.price) (quantity trade)
  have h₂ := h₁.trans (prefix_pushDelete _ (nanoseconds trade)
    (Symbol.ofView trade.symbol) .buy s.2.bid (s.2.newBid trade))
  have h₃ := h₂.trans (prefix_pushDelete _ (nanoseconds trade)
    (Symbol.ofView trade.symbol) .sell s.2.ask (s.2.newAsk trade))
  exact ⟨_, _, _, h₃, rfl⟩

theorem prefix_onTrade : s.1 <+: (onTrade s trade).1 := by
  obtain ⟨earlier, seq, seq', hpre, h⟩ := onTrade_quotes s trade
  rw [h, List.append_assoc]
  exact hpre.trans (List.prefix_append _ _)

theorem prefix_onTrades (a : TradeTapeAdapter F) (trades more : List (FinnhubTrade F)) :
    (onTrades a trades).1 <+: (onTrades a (trades ++ more)).1 := by
  induction more using List.reverseRecOn with
  | nil => simp
  | append_singleton more t ih =>
    have hstep : onTrades a (trades ++ (more ++ [t])) = onTrade (onTrades a (trades ++ more)) t := by
      rw [← List.append_assoc]
      exact run_concat _ _ _ _
    rw [hstep]
    exact ih.trans (prefix_onTrade _ t)

theorem quotes_congr {a b : TradeTapeAdapter F} (h : a.halfSpread = b.halfSpread) :
    a.newBid trade = b.newBid trade ∧ a.newAsk trade = b.newAsk trade := by
  unfold newBid newAsk
  rw [h]
  exact ⟨rfl, rfl⟩

end Appended

/-- The adapter remembers the prices of the overlay. -/
structure Remembers (half : F) (a : TradeTapeAdapter F) (o : Overlay) : Prop where
  halfSpread : a.halfSpread = half
  bid : a.bid = (o .bid).map BookLevel.price
  ask : a.ask = (o .ask).map BookLevel.price

/-- The overlay of a trade. -/
def levelsOf [Double F] (a : TradeTapeAdapter F) (trade : FinnhubTrade F) : Overlay
  | .bid => some ⟨a.newBid trade, quantity trade⟩
  | .ask => some ⟨a.newAsk trade, quantity trade⟩

theorem one_le_quantity [Double F] (trade : FinnhubTrade F) : 1 ≤ quantity trade :=
  le_max_left _ _

/-- **Step lemma.** A trade whose own prices stand in the relation moves both levels to them. -/
theorem Emitted.onTrade [Double F] (h : Emitted R sym s o) (hr : Remembers half s.2 o)
    (trade : FinnhubTrade F) (hprice : R (s.2.newBid trade) (s.2.newAsk trade)) :
    Emitted R sym (onTrade s trade) (levelsOf s.2 trade) ∧
      Remembers half (TradeTapeAdapter.onTrade s trade).2 (levelsOf s.2 trade) := by
  obtain ⟨out, a⟩ := s
  have hq : quantity trade ≠ 0 := by
    have := one_le_quantity trade
    lia
  unfold TradeTapeAdapter.onTrade
  dsimp only
  have h₀ : Emitted R sym
      (out, { a with lastPrice := some trade.price, lastSide := a.inferSide trade }) o := { h with }
  have h₁ := h₀.push o (fun seq => .makeTrade (nanoseconds trade) seq
      (Symbol.ofView trade.symbol) (a.inferSide trade) (Price.fromDouble trade.price)
      (quantity trade)) rfl (fun t lvl => levelAfter_makeTrade _ _ _ _ _ t lvl _ _) h.pairs
  obtain ⟨o₂, h₂, hbid₂, hask₂⟩ := h₁.pushDelete (nanoseconds trade)
    (Symbol.ofView trade.symbol) .buy (a.newBid trade)
  obtain ⟨o₃, h₃, hask₃, hbid₃⟩ := h₂.pushDelete (nanoseconds trade)
    (Symbol.ofView trade.symbol) .sell (a.newAsk trade)
  have hbid : a.bid = (o Side.buy.book).map BookLevel.price := hr.bid
  have hask : a.ask = (o₂ Side.sell.book).map BookLevel.price :=
    hr.ask.trans (congrArg (Option.map BookLevel.price) hask₂.symm)
  have hbid₃' : o₃.At Side.buy.book (a.newBid trade) := fun lvl hlvl => by
    rw [show o₃ Side.buy.book = o₂ Side.buy.book from hbid₃] at hlvl
    exact hbid₂ lvl hlvl
  rw [← hbid] at h₃
  rw [← hask] at h₃
  have h₄ := h₃.push _ (fun seq => .makeQuote (nanoseconds trade) seq
      (Symbol.ofView trade.symbol) .buy (a.newBid trade) (quantity trade)) rfl
    (fun t lvl => levelAfter_makeQuote o₃ _ _ _ .buy _ t lvl hq hbid₃') (by
      rintro b k ⟨⟩ hk
      rw [hask₃ k hk]
      exact hprice)
  have hlevels : levelsOf a trade = (o₃.put .bid (some ⟨a.newBid trade, quantity trade⟩)).put .ask
      (some ⟨a.newAsk trade, quantity trade⟩) := by
    funext t
    cases t <;> rfl
  have h₅ := h₄.push (levelsOf a trade) (fun seq => .makeQuote (nanoseconds trade) seq
      (Symbol.ofView trade.symbol) .sell (a.newAsk trade) (quantity trade)) rfl
    (fun t lvl => by
      rw [hlevels]
      exact levelAfter_makeQuote _ _ _ _ .sell _ t lvl hq hask₃) (by
      rintro b k ⟨⟩ ⟨⟩
      exact hprice)
  refine ⟨{ h₅ with }, ?_, rfl, rfl⟩
  show (TradeTapeAdapter.pushDelete _ _ _ _ _
    (TradeTapeAdapter.pushDelete _ _ _ _ _ _)).2.halfSpread = half
  rw [pushDelete_halfSpread, pushDelete_halfSpread]
  exact hr.halfSpread

/-- **Run lemma.** -/
theorem onTrades_emitted [Double F] (R : Price → Price → Prop) (sym : Symbol) (spread : F)
    (trades : List (FinnhubTrade F))
    (hR : ∀ t ∈ trades, R ((new spread).newBid t) ((new spread).newAsk t)) :
    ∃ o, Emitted R sym (onTrades (new spread) trades) o ∧
      Remembers (new spread).halfSpread (onTrades (new spread) trades).2 o ∧
      ∀ t, trades.getLast? = some t → o = levelsOf (new spread) t := by
  induction trades using List.reverseRecOn with
  | nil =>
    have hholds : Holds (OrderBook.after sym []) fun _ => none := by
      refine ⟨ordered_new sym, fun t lvl => ?_⟩
      cases t <;> exact ⟨fun h => absurd h List.not_mem_nil, fun h => nomatch h⟩
    have hpairs : Overlay.Pairs R fun _ => none := by
      intro b a hb
      cases hb
    refine ⟨fun _ => none, ⟨rfl, rfl, hholds, hpairs, fun pre hpre => ?_⟩, ⟨rfl, rfl, rfl⟩, ?_⟩
    · rw [List.prefix_nil.mp hpre]
      exact ⟨_, hholds, hpairs⟩
    · intro t ht
      cases ht
  | append_singleton trades trade ih =>
    obtain ⟨o, ho, hr, -⟩ := ih fun t ht => hR t (List.mem_append_left _ ht)
    have hprice := hR trade (List.mem_append_right _ (List.mem_singleton_self _))
    obtain ⟨hbid, hask⟩ := quotes_congr trade hr.halfSpread
    have hlevels :
        levelsOf (onTrades (new spread) trades).2 trade = levelsOf (new spread) trade := by
      funext t
      cases t with
      | bid => exact congrArg (fun px => some (BookLevel.mk px (quantity trade))) hbid
      | ask => exact congrArg (fun px => some (BookLevel.mk px (quantity trade))) hask
    rw [← hbid, ← hask] at hprice
    obtain ⟨ho', hr'⟩ := ho.onTrade hr trade hprice
    rw [hlevels] at ho' hr'
    rw [onTrades, run_concat]
    refine ⟨_, ho', hr', fun t ht => ?_⟩
    rw [List.getLast?_concat] at ht
    cases ht
    rfl

/-! ## Exact numbers -/

section Exact

variable {spread : Rat64} {trade : FinnhubTrade Rat64}

/-- Both prices of a trade fit their ticks. -/
structure PricesFit (spread : Rat64) (trade : FinnhubTrade Rat64) : Prop where
  bid : RoundsToI64 ((trade.price.val - spread.val / 2) * 10000)
  ask : RoundsToI64 ((trade.price.val + spread.val / 2) * 10000)

instance (spread : Rat64) (trade : FinnhubTrade Rat64) : Decidable (PricesFit spread trade) :=
  decidable_of_iff (RoundsToI64 ((trade.price.val - spread.val / 2) * 10000) ∧
    RoundsToI64 ((trade.price.val + spread.val / 2) * 10000))
    ⟨fun h => ⟨h.1, h.2⟩, fun h => ⟨h.1, h.2⟩⟩

theorem newBid_ticks (spread : Rat64) (trade : FinnhubTrade Rat64) :
    ((new spread).newBid trade).ticks =
      castI64 (roundAway ((trade.price.val - spread.val / 2) * 10000)) :=
  Price.fromDouble_ticks64 _

theorem newAsk_ticks (spread : Rat64) (trade : FinnhubTrade Rat64) :
    ((new spread).newAsk trade).ticks =
      castI64 (roundAway ((trade.price.val + spread.val / 2) * 10000)) :=
  Price.fromDouble_ticks64 _

theorem llround_rat64 (x : Rat64) : llround x = castI64 (roundAway x.val) := by
  have hrest := abs_lt.mp (abs_sub_toInt_lt x.val)
  have hhalf : (ofInt 1 / ofInt 2 : Rat64).val = 1 / 2 := by norm_num
  unfold llround
  simp only [Rat64.lt_iff, Rat64.le_iff, Rat64.val_sub, Rat64.val_neg, hhalf, Rat64.val_ofInt,
    Int.cast_one, Rat64.toInt_eq]
  by_cases hx : InI64 (toInt x.val)
  · rw [castI64_of_inI64 hx, roundAway_eq_toInt]
    simp only [hrest.1, hrest.2, and_true]
  · -- the cast of the number itself is the least integer, and nothing near it is rounded
    rw [castI64_of_not hx]
    have hout : ¬ InI64 (roundAway x.val) := by
      rw [inI64_toInt_iff] at hx
      rw [inI64_roundAway_iff, RoundsToI64]
      intro h
      exact hx ⟨by linarith [h.1], by linarith [h.2]⟩
    rw [castI64_of_not hout]
    rw [inI64_toInt_iff] at hx
    push_cast
    rw [if_neg, if_neg]
    · rfl
    · rintro ⟨h₁, h₂⟩
      exact hx ⟨by linarith, by linarith⟩
    · rintro ⟨h₁, h₂⟩
      exact hx ⟨by linarith, by linarith⟩

theorem quantity_eq (trade : FinnhubTrade Rat64) :
    quantity trade = max 1 (castI64 (roundAway trade.volume.val)) := by
  rw [quantity, llround_rat64]

namespace PricesFit

variable (h : PricesFit spread trade)

include h

theorem newBid_ticks : ((new spread).newBid trade).ticks =
    roundAway ((trade.price.val - spread.val / 2) * 10000) :=
  (TradeTapeAdapter.newBid_ticks spread trade).trans (castI64_roundAway h.bid)

theorem newAsk_ticks : ((new spread).newAsk trade).ticks =
    roundAway ((trade.price.val + spread.val / 2) * 10000) :=
  (TradeTapeAdapter.newAsk_ticks spread trade).trans (castI64_roundAway h.ask)

theorem newBid_lt_newAsk (hs : 1 / 10000 ≤ spread.val) :
    (new spread).newBid trade < (new spread).newAsk trade := by
  rw [Price.lt_iff, h.newBid_ticks, h.newAsk_ticks]
  exact roundAway_lt (by linarith)

end PricesFit

theorem average_toDouble (bid ask : Price) :
    (((bid.toDouble : Rat64) + ask.toDouble) / ofInt 2).val =
      ((bid.ticks + ask.ticks : ℤ) : ℚ) / 20000 := by
  have hscale : (Price.kScale : ℚ) = 10000 := rfl
  simp only [Price.toDouble, Rat64.val_div, Rat64.val_add, Rat64.val_ofInt, hscale]
  push_cast
  ring

/-- The book shows the trade: one bid and one ask, at its rounded prices and of its rounded volume,
with their average at its price, up to half a tick. -/
structure ShowsTrade (b : OrderBook) (spread : Rat64) (trade : FinnhubTrade Rat64) : Prop where
  bids : b.bids = [⟨.fromTicks (roundAway ((trade.price.val - spread.val / 2) * 10000)),
    max 1 (roundAway trade.volume.val)⟩]
  asks : b.asks = [⟨.fromTicks (roundAway ((trade.price.val + spread.val / 2) * 10000)),
    max 1 (roundAway trade.volume.val)⟩]
  mid : ∃ mid : Rat64, b.midPrice = some mid ∧ |mid.val - trade.price.val| ≤ 1 / 20000

theorem abs_average_sub_le (p h : ℚ) :
    |((roundAway ((p - h) * 10000) + roundAway ((p + h) * 10000) : ℤ) : ℚ) / 20000 - p| ≤
      1 / 20000 := by
  have hbid := abs_le.mp (abs_roundAway_sub_le ((p - h) * 10000))
  have hask := abs_le.mp (abs_roundAway_sub_le ((p + h) * 10000))
  push_cast
  rw [abs_le]
  constructor <;> linarith

/-- **The book of a trade's levels** shows it exactly if its prices fit their ticks and its volume is
not too large. -/
theorem showsTrade_iff {b : OrderBook} (hb : Holds b (levelsOf (new spread) trade)) :
    ShowsTrade b spread trade ↔ PricesFit spread trade ∧ trade.volume.val < 2 ^ 63 - 1 / 2 := by
  have hbids : b.bids = [⟨(new spread).newBid trade, quantity trade⟩] := hb.levels_eq .bid
  have hasks : b.asks = [⟨(new spread).newAsk trade, quantity trade⟩] := hb.levels_eq .ask
  have hvolume : quantity trade = max 1 (roundAway trade.volume.val) ↔
      trade.volume.val < 2 ^ 63 - 1 / 2 := by
    rw [← roundAway_lt_two_pow_iff, quantity_eq]
    unfold castI64 InI64
    split_ifs <;> lia
  constructor
  · intro h
    have hbid := hbids.symm.trans h.bids
    have hask := hasks.symm.trans h.asks
    rw [List.cons.injEq, BookLevel.mk.injEq] at hbid hask
    have hbid' := (newBid_ticks spread trade).symm.trans (congrArg Price.ticks hbid.1.1)
    have hask' := (newAsk_ticks spread trade).symm.trans (congrArg Price.ticks hask.1.1)
    exact ⟨⟨(inI64_roundAway_iff _).mp (castI64_eq_self_iff.mp hbid'),
      (inI64_roundAway_iff _).mp (castI64_eq_self_iff.mp hask')⟩, hvolume.mp hbid.1.2⟩
  · rintro ⟨hfit, hv⟩
    refine ⟨?_, ?_, _, midPrice_eq_some_iff.mpr ⟨_, _, hb.bestBid_eq, hb.bestAsk_eq, rfl⟩, ?_⟩
    · rw [hbids, hvolume.mpr hv, ← hfit.newBid_ticks]
      rfl
    · rw [hasks, hvolume.mpr hv, ← hfit.newAsk_ticks]
      rfl
    · rw [average_toDouble, hfit.newBid_ticks, hfit.newAsk_ticks]
      exact abs_average_sub_le _ _

/-- What the overlay of a tape is for: no event leaves the book crossed or locked, after a trade's
batch the book shows the trade, and the events are numbered `1, 2, 3, …`. -/
structure OverlayKept (sym : Symbol) (spread : Rat64) (trades : List (FinnhubTrade Rat64)) :
    Prop where
  uncrossed : ∀ pre, pre <+: (onTrades (new spread) trades).1 →
    (OrderBook.after sym pre).crossed = false
  shown : ∀ front t, front ++ [t] <+: trades →
    ShowsTrade (OrderBook.after sym (onTrades (new spread) (front ++ [t])).1) spread t
  sequences : (onTrades (new spread) trades).1.map MarketEvent.sequence =
    List.range' 1 (onTrades (new spread) trades).1.length

end Exact

/-- **When the overlay never crosses.** For a spread of at least one tick: exactly if every trade of
the tape has prices that fit their ticks and a volume that is not too large. -/
theorem overlay_kept_iff (sym : Symbol) {spread : Rat64} (hs : 1 / 10000 ≤ spread.val)
    (trades : List (FinnhubTrade Rat64)) :
    OverlayKept sym spread trades ↔
      ∀ t ∈ trades, PricesFit spread t ∧ t.volume.val < 2 ^ 63 - 1 / 2 := by
  have hshows : ∀ front t, ShowsTrade (OrderBook.after sym (onTrades (new spread) (front ++ [t])).1)
      spread t ↔ PricesFit spread t ∧ t.volume.val < 2 ^ 63 - 1 / 2 := by
    intro front t
    obtain ⟨o, ho, -, hlast⟩ :=
      onTrades_emitted (fun _ _ => True) sym spread (front ++ [t]) fun _ _ => trivial
    obtain rfl := hlast t List.getLast?_concat
    exact showsTrade_iff ho.holds
  constructor
  · intro h t ht
    obtain ⟨front, back, rfl⟩ := List.append_of_mem ht
    refine (hshows front t).mp (h.shown front t ⟨back, ?_⟩)
    rw [List.append_assoc, List.singleton_append]
  · intro h
    obtain ⟨o, ho, -, -⟩ := onTrades_emitted (· < ·) sym spread trades fun t ht =>
      (h t ht).1.newBid_lt_newAsk hs
    refine ⟨fun pre hpre => ?_, fun front t hpre => ?_, ho.sequences⟩
    · obtain ⟨o', hholds, ho'⟩ := ho.prefixes pre hpre
      exact hholds.crossed_eq ho'
    · have ht : t ∈ trades :=
        hpre.subset (List.mem_append_right _ (List.mem_singleton_self t))
      exact (hshows front t).mpr (h t ht)

/-- A trade, then one that moves the bid by a tick and leaves the ask, then one that moves both. -/
def driftTape : List (FinnhubTrade Rat64) :=
  [⟨[65], ⟨100⟩, ⟨5⟩, 1000⟩, ⟨[65], ⟨100 + 3 / 100000⟩, ⟨1 / 5⟩, 2000⟩,
    ⟨[65], ⟨199 / 2⟩, ⟨5 / 2⟩, 3000⟩]

theorem overlay_kept_drift : OverlayKept (Symbol.ofView [65]) ⟨3 / 20000⟩ driftTape :=
  (overlay_kept_iff (Symbol.ofView [65]) (by norm_num) driftTape).mpr (by decide +kernel)

/-- **A price of 10¹⁵ dollars** is quoted at the least price on both sides. -/
theorem overlay_not_kept :
    ¬ ∀ (sym : Symbol) (spread : Rat64) (trades : List (FinnhubTrade Rat64)),
      1 / 10000 ≤ spread.val → OverlayKept sym spread trades := by
  intro h
  have hkept := h (Symbol.ofView [65]) ⟨1 / 50⟩ [⟨[65], ⟨10 ^ 15⟩, ⟨1⟩, 1000⟩] (by norm_num)
  have hcrossed := hkept.uncrossed _ List.prefix_rfl
  revert hcrossed
  decide +kernel

end TradeTapeAdapter

end Lob
