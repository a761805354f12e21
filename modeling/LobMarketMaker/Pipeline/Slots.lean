import LobMarketMaker.Pipeline.Simulation

/-!
# Slots and open orders

The pipeline's two slots and the engine's map are updated at different places, but both show the
same desk.

* `Shows.slot_iff`: a slot is taken exactly when the engine has that order;
* **`slots_openOrders`**: slots and open orders correspond in every reachable state.
-/

set_option autoImplicit false

namespace Lob

open Foundation

theorem Desk.countP_entries_le (d : Desk) (s : BookSide) :
    d.entries.countP (·.2.side = s.side) ≤ 1 := by
  have hother : (d.sideEntries s.other).countP (·.2.side = s.side) = 0 := by
    rw [List.countP_eq_zero]
    intro x hx
    obtain ⟨o, -, rfl⟩ := mem_sideEntries.mp hx
    have ho : o.side ≠ s.side := by
      rw [o.side_eq, Ne, BookSide.side_inj]
      exact s.other_ne
    rw [decide_eq_true_eq]
    exact ho
  have hself : (d.sideEntries s).length ≤ 1 := by
    unfold sideEntries
    cases d.resting s with
    | none => exact Nat.zero_le _
    | some o => exact le_refl _
  rw [(d.entries_perm s).countP_eq, List.countP_append, hother]
  exact List.countP_le_length.trans hself

namespace Pipeline

variable {F : Type} [Double F] {p : Pipeline F} {os : List (OrderId × Order)} {d : Desk}

theorem Shows.slot_iff (h : Shows p os d) (s : BookSide) (id : OrderId) (price : Price)
    (size : Quantity) : p.resting s = some ⟨id, price, size⟩ ↔
      ∃ o, (id, o) ∈ os ∧ o.id = id ∧ o.side = s.side ∧ o.type = .limit ∧ o.price = price ∧
        o.quantity = size := by
  rw [h.slots]
  constructor
  · intro hs
    obtain ⟨o, ho, hslot⟩ := Option.map_eq_some_iff.mp hs
    have hentry : o.entry ∈ os := h.entries.mem_iff.mpr (Desk.mem_entries.mpr ⟨s, o, ho, rfl⟩)
    cases hslot
    exact ⟨o.toOrder, hentry, rfl, o.side_eq, o.limit, rfl, rfl⟩
  · rintro ⟨o, ho, -, hside, -, rfl, rfl⟩
    obtain ⟨t, live, ht, hentry⟩ := Desk.mem_entries.mp (h.entries.mem_iff.mp ho)
    cases hentry
    obtain rfl : s = t := BookSide.side_inj.mp (hside.symm.trans live.side_eq)
    rw [ht]
    rfl

theorem Shows.slot_of_mem (h : Shows p os d) {x : OrderId × Order} (hx : x ∈ os) :
    ∃ s : BookSide, x.2.side = s.side ∧
      p.resting s = some ⟨x.1, x.2.price, x.2.quantity⟩ ∧ 0 < x.2.remainingQuantity := by
  obtain ⟨s, o, ho, rfl⟩ := Desk.mem_entries.mp (h.entries.mem_iff.mp hx)
  refine ⟨s, o.side_eq, ?_, o.open_pos⟩
  rw [h.slots, ho]
  rfl

theorem Shows.eq_nil (h : Shows p os d) (hp : ∀ s, p.resting s = none) : os = [] := by
  refine List.eq_nil_iff_forall_not_mem.mpr fun x hx => ?_
  obtain ⟨s, -, hs, -⟩ := h.slot_of_mem hx
  rw [hp s] at hs
  cases hs

theorem after_shows (host : Host F) (symbol : Symbol) (cfg : PipelineConfig F)
    (calls : List Call) :
    ∃ d, Shows (after host symbol cfg calls) (after host symbol cfg calls).exec.openOrders d := by
  obtain ⟨d, ht⟩ := exists_tracks host symbol cfg calls
  exact ⟨d, ht.shows⟩

/-- **Resting slots and open orders never drift apart.** -/
theorem slots_openOrders (host : Host F) (symbol : Symbol) (cfg : PipelineConfig F)
    (calls : List Call) :
    let p := after host symbol cfg calls
    (∀ s id price size, p.resting s = some ⟨id, price, size⟩ ↔
      ∃ o, (id, o) ∈ p.exec.openOrders ∧ o.id = id ∧ o.side = s.side ∧ o.type = .limit ∧
        o.price = price ∧ o.quantity = size) ∧
    (∀ bid ask, p.restingBid = some bid → p.restingAsk = some ask → bid.id ≠ ask.id) ∧
    (p.exec.openOrders.map Prod.fst).Nodup ∧
    (∀ x ∈ p.exec.openOrders, ∃ s : BookSide, x.2.side = s.side ∧
      p.resting s = some ⟨x.1, x.2.price, x.2.quantity⟩) ∧
    (∀ s : BookSide, p.exec.openOrders.countP (·.2.side = s.side) ≤ 1) ∧
    ∀ x ∈ p.exec.openOrders, 0 < x.2.remainingQuantity := by
  intro p
  obtain ⟨d, h⟩ : ∃ d, Shows p p.exec.openOrders d := after_shows host symbol cfg calls
  refine ⟨h.slot_iff, ?_, h.nodup_keys, fun x hx => ?_, fun s => ?_, fun x hx => ?_⟩
  · intro bid ask hbid hask
    have hb := (h.slots .bid).symm.trans hbid
    have ha := (h.slots .ask).symm.trans hask
    obtain ⟨b, hrb, rfl⟩ := Option.map_eq_some_iff.mp hb
    obtain ⟨a, hra, rfl⟩ := Option.map_eq_some_iff.mp ha
    exact h.ids_ne .bid b a hrb hra
  · obtain ⟨s, hside, hslot, -⟩ := h.slot_of_mem hx
    exact ⟨s, hside, hslot⟩
  · rw [h.entries.countP_eq]
    exact d.countP_entries_le s
  · obtain ⟨s, -, -, hpos⟩ := h.slot_of_mem hx
    exact hpos

end Pipeline

end Lob
