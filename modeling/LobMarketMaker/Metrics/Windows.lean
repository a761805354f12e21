import LobMarketMaker.Metrics.Microstructure

/-!
# Windows that do not move

* `tail_concat_eq_iff`: a window that slides over one value is the same as before only if it holds
  nothing else;
* `returns_onBookUpdate_iff`, `trades_onTrade_iff`: when the windows stay as they are.
-/

set_option autoImplicit false

namespace Lob

open Foundation

section Lists

variable {α : Type} {l : List α} {x : α}

theorem concat_eq_cons {a : α} (h : l ++ [x] = a :: l) : a = x ∧ ∀ y ∈ l, y = x := by
  induction l generalizing a with
  | nil => exact ⟨(List.cons.inj h).1.symm, nofun⟩
  | cons b l ih =>
    obtain ⟨rfl, htail⟩ := List.cons.inj h
    obtain ⟨rfl, hall⟩ := ih htail
    exact ⟨rfl, List.forall_mem_cons.mpr ⟨rfl, hall⟩⟩

theorem tail_concat_eq_iff : (l ++ [x]).tail = l ↔ ∀ y ∈ l, y = x := by
  cases l with
  | nil => exact ⟨fun _ => nofun, fun _ => rfl⟩
  | cons a l =>
    constructor
    · intro h
      obtain ⟨rfl, hall⟩ := concat_eq_cons h
      exact List.forall_mem_cons.mpr ⟨rfl, hall⟩
    · intro h
      rw [List.eq_replicate_iff.mpr ⟨rfl, h⟩, ← List.replicate_succ', List.tail_replicate]
      rfl

end Lists

namespace MicrostructureCalculator

variable {F : Type} [Double F] {m : MicrostructureCalculator F} {libm : Libm F} {book : OrderBook}

theorem lastMid_onBookUpdate {mid : F} (h : book.midPrice = some mid) :
    (m.onBookUpdate libm book).lastMid = some mid := by
  unfold onBookUpdate
  rw [h]
  cases m.lastMid <;> rfl

theorem trades_onBookUpdate : (m.onBookUpdate libm book).trades = m.trades ∧
    (m.onBookUpdate libm book).tradeWindow = m.tradeWindow := by
  unfold onBookUpdate
  split
  · exact ⟨rfl, rfl⟩
  · split <;> exact ⟨rfl, rfl⟩

theorem returns_onBookUpdate_iff
    (h : ∀ mid : F, book.midPrice = some mid → m.lastMid = some mid) :
    (m.onBookUpdate libm book).returns = m.returns ↔
      ∀ mid : F, book.midPrice = some mid →
        m.volatilityWindow ≤ m.returns.length ∧ ∀ r ∈ m.returns, r = libm.log (mid / mid) := by
  unfold onBookUpdate
  cases hm : (book.midPrice : Option F) with
  | none => exact ⟨fun _ => nofun, fun _ => rfl⟩
  | some mid =>
    rw [h mid hm]
    dsimp only
    rw [List.length_append, List.length_singleton]
    have hforall (P : F → Prop) : (∀ mid' : F, some mid = some mid' → P mid') ↔ P mid :=
      ⟨fun h => h mid rfl, fun h mid' e => Option.some.inj e ▸ h⟩
    rw [hforall]
    split_ifs with hlen
    · rw [tail_concat_eq_iff]
      exact ⟨fun hall => ⟨Nat.lt_succ_iff.mp hlen, hall⟩, And.right⟩
    · constructor
      · intro heq
        have := congrArg List.length heq
        rw [List.length_append, List.length_singleton] at this
        exact absurd this (Nat.succ_ne_self _)
      · exact fun hfull => absurd (Nat.lt_succ_iff.mpr hfull.1) hlen

omit [Double F] in
theorem trades_onTrade_iff (qty : Quantity) (ts : Timestamp) :
    (m.onTrade qty ts).trades = m.trades ↔
      m.trades.length = m.tradeWindow ∧ ∀ t ∈ m.trades, t = ⟨qty, ts⟩ := by
  show (m.trades ++ [(⟨qty, ts⟩ : TradeSample)]).drop _ = m.trades ↔ _
  rw [List.length_append, List.length_singleton]
  constructor
  · intro heq
    have hlen := congrArg List.length heq
    rw [List.length_drop, List.length_append, List.length_singleton] at hlen
    have hfull : m.trades.length = m.tradeWindow := by omega
    refine ⟨hfull, ?_⟩
    rw [hfull, Nat.add_sub_cancel_left, List.drop_one, tail_concat_eq_iff] at heq
    exact heq
  · rintro ⟨hfull, hall⟩
    rw [hfull, Nat.add_sub_cancel_left, List.drop_one, tail_concat_eq_iff]
    exact hall

end MicrostructureCalculator

end Lob
