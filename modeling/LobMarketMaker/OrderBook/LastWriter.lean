import LobMarketMaker.OrderBook.Model
import Mathlib.Order.Bounds.Basic
import Mathlib.Data.List.Sort

/-!
# The book is last-writer-wins and always sorted

* `Ordered`: bids strictly descending, asks strictly ascending; `Ordered.apply`: every event keeps
  it, since on a sorted vector the binary search finds the place of the price
  (`levels_upsert`, `levels_erase`);
* `LastWrite evs s p q`: among the quotes and deletions of `evs` on side `s` at price `p` after the
  last snapshot, the last one is a quote with quantity `q ≠ 0`;
* `after_spec`: the levels of a book are exactly the last writes;
* **`levels_lastWrite`**: levels, best prices and depths in terms of the last writes.
-/

set_option autoImplicit false

namespace Lob

open Foundation

/-! ## The order of a side -/

/-- `p` stands before `q` on side `s`. -/
def BookSide.Better : BookSide → Price → Price → Prop
  | .bid, p, q => q < p
  | .ask, p, q => p < q

instance (s : BookSide) : DecidableRel s.Better := fun p q => by
  cases s <;> (unfold BookSide.Better; infer_instance)

instance (s : BookSide) : IsStrictTotalOrder Price s.Better := by
  cases s
  · exact inferInstanceAs (IsStrictTotalOrder Price (· > ·))
  · exact inferInstanceAs (IsStrictTotalOrder Price (· < ·))

namespace OrderBook

theorem findPosition_eq (l : List BookLevel) (s : BookSide) (price : Price) :
    findPosition l s price = lowerBound (fun lvl => s.Better lvl.price price) l := by
  cases s <;> rfl

/-- Bids strictly descending, asks strictly ascending. -/
def Ordered (b : OrderBook) : Prop := ∀ s, Sorted BookLevel.price s.Better (b.levels s)

variable {b : OrderBook}

theorem any_findPosition (hb : b.Ordered) (s : BookSide) (price : Price) :
    ((b.levels s)[findPosition (b.levels s) s price]?).any (fun lvl => lvl.price = price) = true ↔
      ∃ lvl ∈ b.levels s, lvl.price = price := by
  rw [findPosition_eq, Option.any_eq_true]
  constructor
  · rintro ⟨lvl, hl, hp⟩
    exact ⟨lvl, List.mem_of_getElem? hl, by simpa using hp⟩
  · rintro ⟨lvl, hl, rfl⟩
    exact ⟨lvl, getElem?_lowerBound (hb s) hl, by simp⟩

/-- **Upsert.** A zero quantity removes the level, any other becomes the level's quantity. -/
theorem levels_upsert (hb : b.Ordered) (side : Side) (price : Price) (qty : Quantity) :
    (b.upsert side price qty).levels side.book =
      if qty = 0 then remove BookLevel.price price (b.levels side.book)
      else put BookLevel.price side.book.Better ⟨price, qty⟩ (b.levels side.book) := by
  unfold upsert
  simp only [levels_setLevels_self]
  by_cases h : ∃ lvl ∈ b.levels side.book, lvl.price = price
  · rw [if_pos ((any_findPosition hb _ _).mpr h)]
    obtain ⟨lvl, hl, rfl⟩ := h
    rw [findPosition_eq]
    split_ifs with hq
    · exact eraseIdx_lowerBound (hb side.book) hl
    · rw [← set_lowerBound (hb side.book) ⟨lvl.price, qty⟩ hl rfl]
      have hg := getElem?_lowerBound (hb side.book) hl
      refine List.ext_getElem? fun i => ?_
      rw [List.getElem?_modify, List.getElem?_set]
      by_cases hi : lowerBound (fun a => side.book.Better a.price lvl.price) (b.levels side.book) = i
      · subst hi
        obtain ⟨hlt, -⟩ := List.getElem?_eq_some_iff.mp hg
        simp only [if_true, hg, hlt]
        rfl
      · simp [hi]
  · rw [if_neg (fun hc => h ((any_findPosition hb _ _).mp hc))]
    have hno : ∀ lvl ∈ b.levels side.book, lvl.price ≠ price := fun lvl hl hp => h ⟨lvl, hl, hp⟩
    rw [findPosition_eq]
    by_cases hq : qty = 0
    · rw [if_neg (by simpa using hq), if_pos hq, remove_eq_self hno]
    · rw [if_pos hq, if_neg hq]
      exact insertIdx_lowerBound (hb side.book) ⟨price, qty⟩ hno

theorem levels_erase (hb : b.Ordered) (side : Side) (price : Price) :
    (b.erase side price).levels side.book =
      remove BookLevel.price price (b.levels side.book) := by
  unfold erase
  by_cases h : ∃ lvl ∈ b.levels side.book, lvl.price = price
  · rw [if_pos ((any_findPosition hb _ _).mpr h), levels_setLevels_self]
    obtain ⟨lvl, hl, rfl⟩ := h
    rw [findPosition_eq]
    exact eraseIdx_lowerBound (hb side.book) hl
  · rw [if_neg (fun hc => h ((any_findPosition hb _ _).mp hc))]
    exact (remove_eq_self fun lvl hl hp => h ⟨lvl, hl, hp⟩).symm

theorem mem_upsert (hb : b.Ordered) (side : Side) (price : Price) (qty : Quantity)
    (lvl : BookLevel) : lvl ∈ (b.upsert side price qty).levels side.book ↔
      if price = lvl.price then qty = lvl.quantity ∧ lvl.quantity ≠ 0
      else lvl ∈ b.levels side.book := by
  rw [levels_upsert hb]
  by_cases hq : qty = 0
  · rw [if_pos hq, mem_remove]
    split_ifs with hp
    · exact ⟨fun h => absurd hp.symm h.2, fun h => absurd (h.1 ▸ hq) h.2⟩
    · exact ⟨fun h => h.1, fun h => ⟨h, fun e => hp e.symm⟩⟩
  · rw [if_neg hq, mem_put]
    split_ifs with hp
    · constructor
      · rintro (rfl | ⟨-, h⟩)
        · exact ⟨rfl, hq⟩
        · exact absurd hp.symm h
      · rintro ⟨h, -⟩
        exact Or.inl (BookLevel.ext hp.symm h.symm)
    · constructor
      · rintro (rfl | ⟨h, -⟩)
        · exact absurd rfl hp
        · exact h
      · exact fun h => Or.inr ⟨h, fun e => hp e.symm⟩

theorem mem_erase (hb : b.Ordered) (side : Side) (price : Price) (lvl : BookLevel) :
    lvl ∈ (b.erase side price).levels side.book ↔
      lvl ∈ b.levels side.book ∧ price ≠ lvl.price := by
  rw [levels_erase hb, mem_remove]
  exact and_congr_right fun _ => ne_comm

theorem levels_upsert_ne {side : Side} {s : BookSide} (h : s ≠ side.book) (price : Price)
    (qty : Quantity) : (b.upsert side price qty).levels s = b.levels s :=
  levels_setLevels_ne _ h _

theorem levels_erase_ne {side : Side} {s : BookSide} (h : s ≠ side.book) (price : Price) :
    (b.erase side price).levels s = b.levels s := by
  unfold erase
  dsimp only
  split_ifs
  · exact levels_setLevels_ne _ h _
  · rfl

end OrderBook

/-! ## One event -/

/-- `ev` writes the level of side `s` at price `p`. -/
def MarketEvent.Writes (ev : MarketEvent) (s : BookSide) (p : Price) : Prop :=
  (ev.type = .quote ∨ ev.type = .bookDelete) ∧ ev.side.book = s ∧ ev.price = p

instance (ev : MarketEvent) (s : BookSide) (p : Price) : Decidable (ev.Writes s p) := by
  unfold MarketEvent.Writes; infer_instance

section Writes

variable {ts : Timestamp} {seq : SequenceNumber} {sym : Symbol} {side : Side} {px : Price}
  {qty : Quantity} {s : BookSide} {p : Price}

theorem MarketEvent.writes_makeQuote :
    (makeQuote ts seq sym side px qty).Writes s p ↔ s = side.book ∧ p = px := by
  simp [Writes, makeQuote, eq_comm]

theorem MarketEvent.writes_makeDelete :
    (makeDelete ts seq sym side px).Writes s p ↔ s = side.book ∧ p = px := by
  simp [Writes, makeDelete, eq_comm]

end Writes

namespace OrderBook

variable {b : OrderBook}

/-- What an event leaves of a level: a snapshot nothing, a write its own quantity. -/
def LevelAfter (ev : MarketEvent) (s : BookSide) (lvl : BookLevel) (old : Prop) : Prop :=
  if ev.type = .snapshot then False
  else if ev.Writes s lvl.price then
    ev.type = .quote ∧ ev.quantity = lvl.quantity ∧ lvl.quantity ≠ 0
  else old

theorem Ordered.stamp (hb : b.Ordered) (ev : MarketEvent) : (b.stamp ev).Ordered := fun s => by
  rw [levels_stamp]; exact hb s

/-- **Every event keeps both sides sorted.** -/
theorem Ordered.apply (hb : b.Ordered) (ev : MarketEvent) : (b.apply ev).Ordered := by
  intro s
  have hb' := hb.stamp ev
  rcases apply_cases b ev with ⟨-, h⟩ | ⟨-, h⟩ | ⟨-, h⟩ | ⟨-, h⟩ | ⟨-, -, -, -, h⟩ <;> rw [h]
  · by_cases hs : s = ev.side.book
    · subst hs
      rw [levels_upsert hb']
      split_ifs
      · exact (hb' _).remove _
      · exact (hb' _).put _
    · rw [levels_upsert_ne hs]; exact hb' s
  · by_cases hs : s = ev.side.book
    · subst hs
      rw [levels_erase hb']
      exact (hb' _).remove _
    · rw [levels_erase_ne hs]; exact hb' s
  · rw [levels_clear]; exact sorted_nil _ _
  · cases s
    · exact hb' .bid
    · exact hb' .ask
  · exact hb' s

/-- **The levels after an event.** -/
theorem mem_apply (hb : b.Ordered) (ev : MarketEvent) (s : BookSide) (lvl : BookLevel) :
    lvl ∈ (b.apply ev).levels s ↔ LevelAfter ev s lvl (lvl ∈ b.levels s) := by
  unfold LevelAfter
  have hb' := hb.stamp ev
  rcases apply_cases b ev with ⟨ht, h⟩ | ⟨ht, h⟩ | ⟨ht, h⟩ | ⟨ht, h⟩ | ⟨h₁, h₂, h₃, -, h⟩ <;> rw [h]
  · rw [if_neg (by rw [ht]; exact EventType.noConfusion)]
    by_cases hs : s = ev.side.book
    · subst hs
      rw [mem_upsert hb', levels_stamp]
      by_cases hp : ev.price = lvl.price
      · rw [if_pos hp, if_pos ⟨Or.inl ht, rfl, hp⟩]
        exact ⟨fun h => ⟨ht, h⟩, fun h => h.2⟩
      · rw [if_neg hp, if_neg fun h => hp h.2.2]
    · rw [levels_upsert_ne hs, levels_stamp, if_neg fun h => hs h.2.1.symm]
  · rw [if_neg (by rw [ht]; exact EventType.noConfusion)]
    by_cases hs : s = ev.side.book
    · subst hs
      rw [mem_erase hb', levels_stamp]
      split_ifs with hw
      · exact ⟨fun h => absurd hw.2.2 h.2, fun h => by rw [ht] at h; exact EventType.noConfusion h.1⟩
      · exact ⟨fun h => h.1, fun h => ⟨h, fun e => hw ⟨Or.inr ht, rfl, e⟩⟩⟩
    · rw [levels_erase_ne hs, levels_stamp, if_neg fun h => hs h.2.1.symm]
  · rw [levels_clear, if_pos ht]
    simp
  · rw [if_neg (by rw [ht]; exact EventType.noConfusion),
      if_neg (by rintro ⟨h | h, -⟩ <;> (rw [ht] at h; exact EventType.noConfusion h))]
    cases s <;> exact Iff.rfl
  · rw [if_neg h₃, if_neg fun h => h.1.elim h₁ h₂, levels_stamp]

/-! ## A list of events -/

/-- Among the quotes and deletions of `evs` at `(s, p)` after the last snapshot, the last one is a
quote with quantity `q ≠ 0`. -/
def LastWrite (evs : List MarketEvent) (s : BookSide) (p : Price) (q : Quantity) : Prop :=
  ∃ pre ev post, evs = pre ++ ev :: post ∧ ev.Writes s p ∧ ev.type = .quote ∧ ev.quantity = q ∧
    q ≠ 0 ∧ ∀ e ∈ post, e.type ≠ .snapshot ∧ ¬ e.Writes s p

theorem not_lastWrite_nil {s : BookSide} {p : Price} {q : Quantity} : ¬ LastWrite [] s p q := by
  rintro ⟨pre, ev, post, h, -⟩
  simp at h

theorem lastWrite_concat (evs : List MarketEvent) (ev : MarketEvent) (s : BookSide)
    (lvl : BookLevel) : LastWrite (evs ++ [ev]) s lvl.price lvl.quantity ↔
      LevelAfter ev s lvl (LastWrite evs s lvl.price lvl.quantity) := by
  unfold LevelAfter
  constructor
  · rintro ⟨pre, e, post, h, hw, hq, hv, h0, hpost⟩
    cases post using List.reverseRecOn with
    | nil =>
      obtain ⟨-, rfl⟩ := List.append_inj' h rfl |>.imp id fun h => List.cons.inj h |>.1
      rw [if_neg (by rw [hq]; exact EventType.noConfusion), if_pos hw]
      exact ⟨hq, hv, h0⟩
    | append_singleton post e' =>
      rw [← List.cons_append, ← List.append_assoc] at h
      obtain ⟨h₁, h₂⟩ := List.append_inj' h rfl
      obtain ⟨rfl, -⟩ := List.cons.inj h₂
      obtain ⟨hs, hn⟩ := hpost ev (by simp)
      rw [if_neg hs, if_neg hn]
      exact ⟨pre, e, post, h₁, hw, hq, hv, h0, fun x hx => hpost x (by simp [hx])⟩
  · intro h
    split_ifs at h with hs hw
    · exact ⟨evs, ev, [], rfl, hw, h.1, h.2.1, h.2.2, by simp⟩
    · obtain ⟨pre, e, post, rfl, hw', hq, hv, h0, hpost⟩ := h
      refine ⟨pre, e, post ++ [ev], by simp, hw', hq, hv, h0, fun x hx => ?_⟩
      rcases List.mem_append.mp hx with hx | hx
      · exact hpost x hx
      · rw [List.mem_singleton.mp hx]; exact ⟨hs, hw⟩

theorem LastWrite.prepend {evs : List MarketEvent} {s : BookSide} {p : Price} {q : Quantity}
    (h : LastWrite evs s p q) (earlier : List MarketEvent) : LastWrite (earlier ++ evs) s p q := by
  obtain ⟨pre, e, post, rfl, h⟩ := h
  exact ⟨earlier ++ pre, e, post, by simp, h⟩

theorem ordered_new (sym : Symbol) : (new sym).Ordered := fun s => by
  cases s <;> exact sorted_nil _ _

variable (sym : Symbol)

/-- **Run lemma.** The book is sorted and holds exactly the last writes. -/
theorem after_spec (evs : List MarketEvent) : (after sym evs).Ordered ∧
    ∀ s lvl, lvl ∈ (after sym evs).levels s ↔ LastWrite evs s lvl.price lvl.quantity := by
  refine run_history OrderBook.apply (P := fun evs b => b.Ordered ∧
    ∀ s lvl, lvl ∈ b.levels s ↔ LastWrite evs s lvl.price lvl.quantity) ⟨ordered_new sym, ?_⟩ ?_ evs
  · intro s lvl
    have : lvl ∉ (new sym).levels s := by cases s <;> exact List.not_mem_nil
    exact ⟨fun h => absurd h this, fun h => absurd h not_lastWrite_nil⟩
  · rintro evs b ev ⟨hb, hm⟩
    refine ⟨hb.apply ev, fun s lvl => ?_⟩
    rw [mem_apply hb, lastWrite_concat, hm]

/-- The live prices of a side. -/
def LivePrices (evs : List MarketEvent) (s : BookSide) : Set Price :=
  {p | ∃ q, LastWrite evs s p q}

theorem mem_livePrices (evs : List MarketEvent) (s : BookSide) (p : Price) :
    p ∈ LivePrices evs s ↔ ∃ lvl ∈ (after sym evs).levels s, lvl.price = p := by
  constructor
  · rintro ⟨q, h⟩
    exact ⟨⟨p, q⟩, ((after_spec sym evs).2 s ⟨p, q⟩).mpr h, rfl⟩
  · rintro ⟨lvl, h, rfl⟩
    exact ⟨lvl.quantity, ((after_spec sym evs).2 s lvl).mp h⟩

theorem bestBid_eq_some (evs : List MarketEvent) (p : Price) :
    (after sym evs).bestBid = some p ↔ IsGreatest (LivePrices evs .bid) p := by
  refine (head?_key_eq_some ((after_spec sym evs).1 .bid) p).trans ?_
  rw [IsGreatest, mem_livePrices sym]
  refine and_congr Iff.rfl ⟨fun h x hx => ?_, fun h lvl hl => ?_⟩
  · obtain ⟨lvl, hl, rfl⟩ := (mem_livePrices sym evs .bid x).mp hx
    exact (h lvl hl).elim le_of_eq le_of_lt
  · exact (h ((mem_livePrices sym evs .bid _).mpr ⟨lvl, hl, rfl⟩)).eq_or_lt

theorem bestAsk_eq_some (evs : List MarketEvent) (p : Price) :
    (after sym evs).bestAsk = some p ↔ IsLeast (LivePrices evs .ask) p := by
  refine (head?_key_eq_some ((after_spec sym evs).1 .ask) p).trans ?_
  rw [IsLeast, mem_livePrices sym]
  refine and_congr Iff.rfl ⟨fun h x hx => ?_, fun h lvl hl => ?_⟩
  · obtain ⟨lvl, hl, rfl⟩ := (mem_livePrices sym evs .ask x).mp hx
    exact (h lvl hl).elim (fun e => le_of_eq e.symm) le_of_lt
  · exact (h ((mem_livePrices sym evs .ask _).mpr ⟨lvl, hl, rfl⟩)).eq_or_lt.imp Eq.symm id

/-- `L` lists the live levels of a side, best first. -/
def ListsLive (evs : List MarketEvent) (s : BookSide) (L : List BookLevel) : Prop :=
  L.Pairwise (fun a b => s.Better a.price b.price) ∧
    ∀ lvl, lvl ∈ L ↔ LastWrite evs s lvl.price lvl.quantity

theorem listsLive_levels (evs : List MarketEvent) (s : BookSide) :
    ListsLive evs s ((after sym evs).levels s) :=
  ⟨(after_spec sym evs).1 s, (after_spec sym evs).2 s⟩

theorem ListsLive.unique {evs : List MarketEvent} {s : BookSide} {L L' : List BookLevel}
    (h : ListsLive evs s L) (h' : ListsLive evs s L') : L = L' :=
  sorted_unique h.1 h'.1 fun x => (h.2 x).trans (h'.2 x).symm

theorem take_min_length {α : Type} (l : List α) (n : ℕ) : l.take (min n l.length) = l.take n := by
  rcases le_total n l.length with h | h
  · rw [min_eq_left h]
  · rw [min_eq_right h, List.take_length, List.take_of_length_le h]

/-- **Last writer wins.** After any events a side holds exactly the last writes, strictly sorted;
so the best prices are the extreme live prices and a depth of `n` is the `n` best live levels. -/
theorem levels_lastWrite (evs : List MarketEvent) :
    (∀ s lvl, lvl ∈ (after sym evs).levels s ↔ LastWrite evs s lvl.price lvl.quantity) ∧
    (after sym evs).bids.Pairwise (fun a b => a.price > b.price) ∧
    (after sym evs).asks.Pairwise (fun a b => a.price < b.price) ∧
    (∀ p, (after sym evs).bestBid = some p ↔ IsGreatest (LivePrices evs .bid) p) ∧
    (∀ p, (after sym evs).bestAsk = some p ↔ IsLeast (LivePrices evs .ask) p) ∧
    (∀ n, ∃ L, ListsLive evs .bid L ∧ (∀ L', ListsLive evs .bid L' → L' = L) ∧
      (after sym evs).bidDepth n = L.take n) ∧
    (∀ n, ∃ L, ListsLive evs .ask L ∧ (∀ L', ListsLive evs .ask L' → L' = L) ∧
      (after sym evs).askDepth n = L.take n) := by
  refine ⟨(after_spec sym evs).2, (after_spec sym evs).1 .bid, (after_spec sym evs).1 .ask,
    bestBid_eq_some sym evs, bestAsk_eq_some sym evs, fun n => ?_, fun n => ?_⟩
  · have hL := listsLive_levels sym evs .bid
    exact ⟨_, hL, fun L' h => h.unique hL, take_min_length _ _⟩
  · have hL := listsLive_levels sym evs .ask
    exact ⟨_, hL, fun L' h => h.unique hL, take_min_length _ _⟩

end OrderBook

end Lob
