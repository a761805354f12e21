import LobMarketMaker.OrderBook.LastWriter

/-!
# Events that say nothing new

* `Repeats`: the event says what the book shows already;
* `levels_quote_eq_iff`, `levels_delete_eq_iff`: when a write leaves the levels as they are;
* **`sameBook_apply_iff`**: only an event that repeats the book leaves it as it is.
-/

set_option autoImplicit false

namespace Lob

open Foundation

namespace OrderBook

variable {b b' : OrderBook} {ev : MarketEvent}

/-- Price, quantity and time of the last trade. -/
def lastTrade (b : OrderBook) : Option Price × Option Quantity × Option Timestamp :=
  (b.lastTradePrice, b.lastTradeQty, b.lastTradeTime)

/-- The same levels and the same last trade. -/
structure SameBook (b b' : OrderBook) : Prop where
  levels : ∀ s, b'.levels s = b.levels s
  lastTrade : b'.lastTrade = b.lastTrade

/-- The event says what the book shows already. -/
def Repeats (b : OrderBook) (ev : MarketEvent) : Prop :=
  match ev.type with
  | .quote =>
    if ev.quantity = 0 then ∀ lvl ∈ b.levels ev.side.book, lvl.price ≠ ev.price
    else ⟨ev.price, ev.quantity⟩ ∈ b.levels ev.side.book
  | .bookDelete => ∀ lvl ∈ b.levels ev.side.book, lvl.price ≠ ev.price
  | .trade => b.lastTrade = (some ev.price, some ev.quantity, some ev.timestamp)
  | .snapshot => ∀ s, b.levels s = []
  | .heartbeat => True
  | .unnamed _ _ => True

@[simp] theorem lastTrade_setLevels (b : OrderBook) (s : BookSide) (l : List BookLevel) :
    (b.setLevels s l).lastTrade = b.lastTrade := by cases s <;> rfl

theorem lastTrade_apply (b : OrderBook) (h : ev.type ≠ .trade) :
    (b.apply ev).lastTrade = b.lastTrade := by
  rcases apply_cases b ev with ⟨-, he⟩ | ⟨-, he⟩ | ⟨-, he⟩ | ⟨ht, -⟩ | ⟨-, -, -, -, he⟩
  · rw [he]
    exact lastTrade_setLevels _ _ _
  · rw [he]
    rcases erase_cases (b.stamp ev) ev.side ev.price with h' | ⟨l, h'⟩ <;> rw [h']
    · rfl
    · exact lastTrade_setLevels _ _ _
  · rw [he]
    rfl
  · exact absurd ht h
  · rw [he]
    rfl

theorem lastUpdate_apply (b : OrderBook) (ev : MarketEvent) :
    (b.apply ev).lastUpdate = ev.timestamp := by
  have hset (b : OrderBook) (s : BookSide) (l : List BookLevel) :
      (b.setLevels s l).lastUpdate = b.lastUpdate := by cases s <;> rfl
  rcases apply_cases b ev with ⟨-, h⟩ | ⟨-, h⟩ | ⟨-, h⟩ | ⟨-, h⟩ | ⟨-, -, -, -, h⟩ <;> rw [h]
  · exact hset _ _ _
  · rcases erase_cases (b.stamp ev) ev.side ev.price with h' | ⟨l, h'⟩ <;> rw [h']
    · rfl
    · exact hset _ _ _
  all_goals rfl

theorem Ordered.eq_of_price_eq (hb : b.Ordered) {s : BookSide} {lvl lvl' : BookLevel}
    (h : lvl ∈ b.levels s) (h' : lvl' ∈ b.levels s) (hp : lvl'.price = lvl.price) : lvl' = lvl := by
  have hmem : lvl' ∈ atKey BookLevel.price lvl.price (b.levels s) :=
    List.mem_filter.mpr ⟨h', decide_eq_true hp⟩
  rw [atKey_eq (hb s) h] at hmem
  exact List.mem_singleton.mp hmem

theorem levels_apply_eq_iff (hb : b.Ordered) (ev : MarketEvent) :
    (∀ s, (b.apply ev).levels s = b.levels s) ↔
      ∀ s lvl, LevelAfter ev s lvl (lvl ∈ b.levels s) ↔ lvl ∈ b.levels s := by
  refine forall_congr' fun s => ⟨fun h lvl => ?_, fun h => ?_⟩
  · rw [← mem_apply hb, h]
  · exact sorted_unique (hb.apply ev s) (hb s) fun lvl => (mem_apply hb ev s lvl).trans (h lvl)

theorem levels_apply_eq_iff_of_writes (hb : b.Ordered)
    (ht : ev.type = .quote ∨ ev.type = .bookDelete) :
    (∀ s, (b.apply ev).levels s = b.levels s) ↔
      ∀ lvl : BookLevel, lvl.price = ev.price →
        ((ev.type = .quote ∧ ev.quantity = lvl.quantity ∧ lvl.quantity ≠ 0) ↔
          lvl ∈ b.levels ev.side.book) := by
  have hsnap : ev.type ≠ .snapshot := by
    rintro hs
    rw [hs] at ht
    exact ht.elim EventType.noConfusion EventType.noConfusion
  rw [levels_apply_eq_iff hb]
  constructor
  · intro h lvl hp
    have := h ev.side.book lvl
    rw [LevelAfter, if_neg hsnap, if_pos ⟨ht, rfl, hp.symm⟩] at this
    exact this
  · intro h s lvl
    rw [LevelAfter, if_neg hsnap]
    by_cases hw : ev.Writes s lvl.price
    · obtain ⟨-, rfl, hp⟩ := id hw
      rw [if_pos hw]
      exact h lvl hp.symm
    · rw [if_neg hw]

theorem levels_quote_eq_iff (hb : b.Ordered) (ht : ev.type = .quote) :
    (∀ s, (b.apply ev).levels s = b.levels s) ↔
      if ev.quantity = 0 then ∀ lvl ∈ b.levels ev.side.book, lvl.price ≠ ev.price
      else ⟨ev.price, ev.quantity⟩ ∈ b.levels ev.side.book := by
  rw [levels_apply_eq_iff_of_writes hb (.inl ht)]
  split_ifs with hq
  · constructor
    · intro h lvl hlvl hp
      obtain ⟨-, hqty, hne⟩ := (h lvl hp).mpr hlvl
      exact hne (hqty.symm.trans hq)
    · intro h lvl hp
      exact ⟨fun hw => absurd (hw.2.1.symm.trans hq) hw.2.2, fun hlvl => absurd hp (h lvl hlvl)⟩
  · constructor
    · exact fun h => (h ⟨ev.price, ev.quantity⟩ rfl).mp ⟨ht, rfl, hq⟩
    · intro h lvl hp
      constructor
      · rintro ⟨-, hqty, -⟩
        have heq : lvl = ⟨ev.price, ev.quantity⟩ := BookLevel.ext hp hqty.symm
        rw [heq]
        exact h
      · intro hlvl
        obtain rfl := hb.eq_of_price_eq h hlvl hp
        exact ⟨ht, rfl, hq⟩

theorem levels_delete_eq_iff (hb : b.Ordered) (ht : ev.type = .bookDelete) :
    (∀ s, (b.apply ev).levels s = b.levels s) ↔
      ∀ lvl ∈ b.levels ev.side.book, lvl.price ≠ ev.price := by
  have hq : ev.type ≠ .quote := by
    rw [ht]
    exact EventType.noConfusion
  rw [levels_apply_eq_iff_of_writes hb (.inr ht)]
  constructor
  · exact fun h lvl hlvl hp => hq ((h lvl hp).mpr hlvl).1
  · exact fun h lvl hp => ⟨fun hw => absurd hw.1 hq, fun hlvl => absurd hp (h lvl hlvl)⟩

/-- **The book stays as it is** exactly if the event repeats it. -/
theorem sameBook_apply_iff (hb : b.Ordered) (ev : MarketEvent) :
    SameBook b (b.apply ev) ↔ b.Repeats ev := by
  have hlevels (ht : ev.type ≠ .trade) :
      SameBook b (b.apply ev) ↔ ∀ s, (b.apply ev).levels s = b.levels s :=
    ⟨SameBook.levels, fun h => ⟨h, lastTrade_apply b ht⟩⟩
  unfold Repeats
  rcases apply_cases b ev with ⟨ht, -⟩ | ⟨ht, -⟩ | ⟨ht, he⟩ | ⟨ht, he⟩ | ⟨h₁, h₂, h₃, h₄, -⟩
  · rw [hlevels (by rw [ht]; exact EventType.noConfusion), levels_quote_eq_iff hb ht]
    simp only [ht]
  · rw [hlevels (by rw [ht]; exact EventType.noConfusion), levels_delete_eq_iff hb ht]
    simp only [ht]
  · rw [hlevels (by rw [ht]; exact EventType.noConfusion), he]
    simp only [ht, levels_clear]
    exact forall_congr' fun s => eq_comm
  · simp only [ht]
    rw [he]
    exact ⟨fun h => h.lastTrade.symm, fun h => ⟨fun s => by cases s <;> rfl, h.symm⟩⟩
  · have hsame : SameBook b (b.apply ev) :=
      ⟨apply_levels_of_not_change b h₁ h₂ h₃, lastTrade_apply b h₄⟩
    cases ht : ev.type with
    | heartbeat => exact iff_of_true hsame trivial
    | unnamed raw h => exact iff_of_true hsame trivial
    | quote => exact absurd ht h₁
    | bookDelete => exact absurd ht h₂
    | snapshot => exact absurd ht h₃
    | trade => exact absurd ht h₄

end OrderBook

end Lob
