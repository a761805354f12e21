import LobMarketMaker.Execution.PaperExecutionEngine
import Mathlib.Algebra.BigOperators.Group.List.Basic
import Mathlib.Logic.Function.Basic

/-!
# A quoting desk

What the pipeline is for, seen from its orders: a desk works at most one order on each side of the
market, and each order is placed, filled piece by piece, and closed when it is full or canceled.

* `LiveOrder s`: an open limit order of side `s`, with something left to fill;
* `Desk.Step`: placing, canceling, filling in part and filling up. `allow` says which orders may be
  placed in which position, `move` how a fill moves the position;
* `Desk.Within`: position and open quantity stay within a limit (`Step.within`);
* `Desk.Balanced`, `Desk.SharesBalance`: no order and no share is lost or counted twice
  (`Step.balanced`, `Step.sharesBalance`).
-/

set_option autoImplicit false

namespace Lob

/-- Buying raises the position, selling lowers it. -/
def BookSide.sign : BookSide → ℤ
  | .bid => 1
  | .ask => -1

@[simp] theorem BookSide.sign_other (s : BookSide) : s.other.sign = -s.sign := by cases s <;> rfl

/-! ## Live orders -/

/-- An open limit order of a side. -/
structure LiveOrder (s : BookSide) extends Order where
  side_eq : side = s.side
  limit : type = .limit
  filled_nonneg : 0 ≤ filledQuantity
  open_pos : 0 < quantity - filledQuantity

namespace LiveOrder

variable {s : BookSide} (o : LiveOrder s)

/-- What is left to fill. -/
def remaining : ℤ := o.quantity - o.filledQuantity

theorem remaining_pos : 0 < o.remaining := o.open_pos

theorem remaining_eq : o.remainingQuantity = o.remaining := rfl

theorem remaining_le : o.remaining ≤ o.quantity := by
  have := o.filled_nonneg
  unfold remaining
  lia

/-- A fill that leaves something open. -/
def fillPart (q : ℤ) (now : Timestamp) (hpos : 0 < q) (hlt : q < o.remaining) : LiveOrder s where
  toOrder := o.toOrder.fill q now
  side_eq := o.side_eq
  limit := o.limit
  filled_nonneg := by
    have := o.filled_nonneg
    show 0 ≤ o.filledQuantity + q
    lia
  open_pos := by
    show 0 < o.quantity - (o.filledQuantity + q)
    unfold remaining at hlt
    lia

end LiveOrder

/-! ## The desk -/

/-- A position, at most one order on each side, and the counts. -/
structure Desk where
  position : ℤ := 0
  volume : ℤ := 0
  resting : (s : BookSide) → Option (LiveOrder s) := fun _ => none
  closed : List Order := []
  submitted : ℕ := 0
  canceled : ℕ := 0
  fills : ℕ := 0
  partialFills : ℕ := 0

namespace Desk

/-- The desk with the order of one side replaced. -/
def put (d : Desk) (s : BookSide) (o : Option (LiveOrder s)) : Desk :=
  { d with resting := Function.update d.resting s o }

@[simp] theorem put_resting_self (d : Desk) (s : BookSide) (o : Option (LiveOrder s)) :
    (d.put s o).resting s = o := Function.update_self ..

@[simp] theorem put_resting_other (d : Desk) (s : BookSide) (o : Option (LiveOrder s)) :
    (d.put s o).resting s.other = d.resting s.other := Function.update_of_ne s.other_ne ..

variable (move : ℤ → BookSide → ℤ → ℤ) (allow : ℤ → BookSide → ℤ → Prop)

/-- An order rests on a side. -/
def place (d : Desk) (s : BookSide) (o : LiveOrder s) : Desk :=
  { d with submitted := d.submitted + 1 }.put s (some o)

/-- The order of a side is withdrawn. -/
def cancel (d : Desk) (s : BookSide) (o : LiveOrder s) : Desk :=
  { d with canceled := d.canceled + 1, closed := d.closed ++ [o.toOrder] }.put s none

/-- The order of a side fills in part. -/
def fillPart (d : Desk) (s : BookSide) (o : LiveOrder s) (q : ℤ) (now : Timestamp) (hpos : 0 < q)
    (hlt : q < o.remaining) : Desk :=
  { d with
    position := move d.position s q
    volume := d.volume + q
    fills := d.fills + 1
    partialFills := d.partialFills + 1 }.put s (some (o.fillPart q now hpos hlt))

/-- The order of a side fills to the end. -/
def fillUp (d : Desk) (s : BookSide) (o : LiveOrder s) (now : Timestamp) : Desk :=
  { d with
    position := move d.position s o.remaining
    volume := d.volume + o.remaining
    fills := d.fills + 1
    closed := d.closed ++ [o.toOrder.fill o.remaining now] }.put s none

/-- What can happen to a desk: `allow` says which orders, `move` how a fill shifts the position. -/
inductive Step : Desk → Desk → Prop
  | place (d : Desk) (s : BookSide) (o : LiveOrder s) (hs : d.resting s = none)
      (h0 : o.filledQuantity = 0) (ha : allow d.position s o.quantity) : Step d (d.place s o)
  | cancel (d : Desk) (s : BookSide) (o : LiveOrder s) (hs : d.resting s = some o) :
      Step d (d.cancel s o)
  | fillPart (d : Desk) (s : BookSide) (o : LiveOrder s) (hs : d.resting s = some o) (q : ℤ)
      (now : Timestamp) (hpos : 0 < q) (hlt : q < o.remaining) :
      Step d (d.fillPart move s o q now hpos hlt)
  | fillUp (d : Desk) (s : BookSide) (o : LiveOrder s) (hs : d.resting s = some o)
      (now : Timestamp) : Step d (d.fillUp move s o now)

variable {move allow} {d d' : Desk}

/-! ## The limit -/

/-- The quantity a side still works. -/
def working (d : Desk) (s : BookSide) : ℤ := (d.resting s).elim 0 LiveOrder.remaining

theorem working_of_some {s : BookSide} {o : LiveOrder s} (h : d.resting s = some o) :
    d.working s = o.remaining := by
  rw [working, h]
  rfl

theorem working_nonneg (d : Desk) (s : BookSide) : 0 ≤ d.working s := by
  unfold working
  cases d.resting s with
  | none => exact le_refl _
  | some o => exact le_of_lt o.remaining_pos

@[simp] theorem working_put_self (d : Desk) (s : BookSide) (o : Option (LiveOrder s)) :
    (d.put s o).working s = o.elim 0 LiveOrder.remaining := by
  rw [working, put_resting_self]

@[simp] theorem working_put_other (d : Desk) (s : BookSide) (o : Option (LiveOrder s)) :
    (d.put s o).working s.other = d.working s.other := by
  rw [working, working, put_resting_other]

/-- Even if one side fills completely the position stays within the limit `L`; no order is larger
than `Q`. -/
structure Within (L Q : ℤ) (d : Desk) : Prop where
  exposure : ∀ s, s.sign * d.position + d.working s ≤ L
  size : ∀ s o, d.resting s = some o → o.quantity ≤ Q

theorem Within.position_le {L Q : ℤ} (h : Within L Q d) : -L ≤ d.position ∧ d.position ≤ L := by
  have hb := h.exposure .bid
  have ha := h.exposure .ask
  have hb' := d.working_nonneg .bid
  have ha' := d.working_nonneg .ask
  simp only [BookSide.sign] at hb ha
  constructor <;> omega

theorem forall_sides {P : BookSide → Prop} (s : BookSide) (h : P s) (h' : P s.other) :
    ∀ t, P t := by
  intro t
  rcases s.eq_or_eq_other t with rfl | rfl
  · exact h
  · exact h'

theorem Within.put {L Q : ℤ} {s : BookSide} {o : Option (LiveOrder s)}
    (hself : s.sign * d.position + o.elim 0 LiveOrder.remaining ≤ L)
    (hother : s.other.sign * d.position + d.working s.other ≤ L)
    (hsize : ∀ t o', d.resting t = some o' → o'.quantity ≤ Q)
    (ho : ∀ o' ∈ o, o'.quantity ≤ Q) : Within L Q (d.put s o) := by
  refine ⟨forall_sides s ?_ ?_, forall_sides s ?_ ?_⟩
  · rw [working_put_self]
    exact hself
  · rw [working_put_other]
    exact hother
  · intro o' h'
    rw [put_resting_self] at h'
    exact ho o' h'
  · intro o' h'
    rw [put_resting_other] at h'
    exact hsize _ o' h'

theorem Within.fill {L Q : ℤ} (h : Within L Q d) {s : BookSide} {o : LiveOrder s}
    (hs : d.resting s = some o) {q : ℤ} (hpos : 0 < q) (hle : q ≤ o.remaining)
    (hmove : ∀ p s q, |p| ≤ L → 0 < q → q ≤ Q → |p + BookSide.sign s * q| ≤ L →
      move p s q = p + s.sign * q) :
    move d.position s q = d.position + s.sign * q := by
  obtain ⟨h₁, h₂⟩ := h.position_le
  have he := h.exposure s
  rw [working_of_some hs] at he
  have hQ := h.size s o hs
  have hrem := o.remaining_le
  refine hmove _ _ _ (abs_le.mpr ⟨h₁, h₂⟩) hpos (by lia) (abs_le.mpr ?_)
  cases s <;> simp only [BookSide.sign] at he ⊢ <;> constructor <;> lia

/-- **The limit is kept** when every order that may be placed respects it. -/
theorem Step.within {L Q : ℤ}
    (hallow : ∀ p s q, |p| ≤ L → allow p s q → s.sign * p + q ≤ L ∧ q ≤ Q)
    (hmove : ∀ p s q, |p| ≤ L → 0 < q → q ≤ Q → |p + BookSide.sign s * q| ≤ L →
      move p s q = p + s.sign * q)
    (h : Step move allow d d') (hd : Within L Q d) : Within L Q d' := by
  cases h with
  | place s o hs h0 ha =>
    obtain ⟨hL, hQ⟩ := hallow _ _ _ (abs_le.mpr hd.position_le) ha
    unfold Desk.place
    refine .put ?_ (hd.exposure s.other) hd.size ?_
    · exact (add_le_add_right o.remaining_le _).trans hL
    · rintro _ ⟨⟩
      exact hQ
  | cancel s o hs =>
    unfold Desk.cancel
    refine .put ?_ (hd.exposure s.other) hd.size fun _ h => absurd h (Option.not_mem_none _)
    have he := hd.exposure s
    have hw := d.working_nonneg s
    show s.sign * d.position + 0 ≤ L
    omega
  | fillPart s o hs q now hpos hlt =>
    have hm := hd.fill hs hpos (le_of_lt hlt) hmove
    have he := hd.exposure s
    have ho := hd.exposure s.other
    rw [working_of_some hs] at he
    rw [BookSide.sign_other] at ho
    unfold Desk.fillPart
    refine .put ?_ ?_ hd.size ?_
    · show s.sign * move d.position s q + (o.quantity - (o.filledQuantity + q)) ≤ L
      rw [hm]
      unfold LiveOrder.remaining at he
      cases s <;> simp only [BookSide.sign] at he ⊢ <;> lia
    · show s.other.sign * move d.position s q + d.working s.other ≤ L
      rw [hm, BookSide.sign_other]
      cases s <;> simp only [BookSide.sign] at ho ⊢ <;> lia
    · rintro _ ⟨⟩
      exact hd.size s o hs
  | fillUp s o hs now =>
    have hm := hd.fill hs o.remaining_pos (le_refl _) hmove
    have he := hd.exposure s
    have ho := hd.exposure s.other
    have hpos := o.remaining_pos
    rw [working_of_some hs] at he
    rw [BookSide.sign_other] at ho
    unfold Desk.fillUp
    refine .put ?_ ?_ hd.size fun _ h => absurd h (Option.not_mem_none _)
    · show s.sign * move d.position s o.remaining + 0 ≤ L
      rw [hm]
      cases s <;> simp only [BookSide.sign] at he ⊢ <;> lia
    · show s.other.sign * move d.position s o.remaining + d.working s.other ≤ L
      rw [hm, BookSide.sign_other]
      cases s <;> simp only [BookSide.sign] at ho ⊢ <;> lia

/-! ## The balances -/

/-- The open orders. -/
def openOrders (d : Desk) : List Order :=
  (d.resting .bid).toList.map LiveOrder.toOrder ++ (d.resting .ask).toList.map LiveOrder.toOrder

/-- All orders ever placed. -/
def orders (d : Desk) : List Order := d.closed ++ d.openOrders

/-- The filled shares of a list of orders, weighted by side. -/
def shares (w : Side → ℤ) (l : List Order) : ℤ := (l.map fun o => w o.side * o.filledQuantity).sum

@[simp] theorem shares_append (w : Side → ℤ) (l l' : List Order) :
    shares w (l ++ l') = shares w l + shares w l' := by
  simp [shares]

@[simp] theorem shares_singleton (w : Side → ℤ) (o : Order) :
    shares w [o] = w o.side * o.filledQuantity := by
  simp [shares]

/-- The filled shares of a side's open order. -/
def sideShares (w : Side → ℤ) (d : Desk) (s : BookSide) : ℤ :=
  (d.resting s).elim 0 fun o => w o.side * o.filledQuantity

theorem sideShares_of_none {w : Side → ℤ} {s : BookSide} (h : d.resting s = none) :
    d.sideShares w s = 0 := by
  rw [sideShares, h]
  rfl

theorem sideShares_of_some {w : Side → ℤ} {s : BookSide} {o : LiveOrder s}
    (h : d.resting s = some o) : d.sideShares w s = w s.side * o.filledQuantity := by
  rw [sideShares, h, ← o.side_eq]
  rfl

theorem shares_orders (w : Side → ℤ) (d : Desk) (s : BookSide) :
    shares w d.orders = shares w d.closed + d.sideShares w s + d.sideShares w s.other := by
  have h : ∀ t, shares w ((d.resting t).toList.map LiveOrder.toOrder) = d.sideShares w t := by
    intro t
    unfold sideShares
    cases d.resting t with
    | none => rfl
    | some o => exact shares_singleton w o.toOrder
  rw [orders, openOrders, shares_append, shares_append, h, h]
  cases s <;> simp only [BookSide.other] <;> ring

theorem length_openOrders (d : Desk) (s : BookSide) : d.openOrders.length =
    (d.resting s).toList.length + (d.resting s.other).toList.length := by
  rw [openOrders, List.length_append, List.length_map, List.length_map]
  cases s
  · rfl
  · exact Nat.add_comm _ _

theorem length_openOrders_put (d : Desk) (s : BookSide) (o : Option (LiveOrder s)) :
    (d.put s o).openOrders.length = o.toList.length + (d.resting s.other).toList.length := by
  rw [length_openOrders _ s, put_resting_self, put_resting_other]

/-- Placed orders are open, canceled or filled up; a fill is partial or fills an order up. -/
structure Balanced (d : Desk) : Prop where
  submitted : d.submitted = d.openOrders.length + d.closed.length
  closed : d.closed.length + d.partialFills = d.canceled + d.fills
  partial_le : d.partialFills ≤ d.fills

theorem Step.balanced (h : Step move allow d d') (hd : Balanced d) : Balanced d' := by
  obtain ⟨h₁, h₂, h₃⟩ := hd
  cases h with
  | place s o hs h0 ha =>
    rw [length_openOrders _ s, hs, Option.toList_none, List.length_nil] at h₁
    refine ⟨?_, h₂, h₃⟩
    rw [Desk.place, length_openOrders_put]
    show d.submitted + 1 = 1 + (d.resting s.other).toList.length + d.closed.length
    omega
  | cancel s o hs =>
    rw [length_openOrders _ s, hs, Option.toList_some, List.length_singleton] at h₁
    have hc : (d.closed ++ [o.toOrder]).length = d.closed.length + 1 := List.length_append
    refine ⟨?_, ?_, h₃⟩
    · rw [Desk.cancel, length_openOrders_put]
      show d.submitted = 0 + (d.resting s.other).toList.length + (d.closed ++ [o.toOrder]).length
      omega
    · show (d.closed ++ [o.toOrder]).length + d.partialFills = d.canceled + 1 + d.fills
      omega
  | fillPart s o hs q now hpos hlt =>
    rw [length_openOrders _ s, hs, Option.toList_some, List.length_singleton] at h₁
    refine ⟨?_, ?_, Nat.succ_le_succ h₃⟩
    · rw [Desk.fillPart, length_openOrders_put]
      exact h₁
    · show d.closed.length + (d.partialFills + 1) = d.canceled + (d.fills + 1)
      omega
  | fillUp s o hs now =>
    rw [length_openOrders _ s, hs, Option.toList_some, List.length_singleton] at h₁
    have hc : (d.closed ++ [o.toOrder.fill o.remaining now]).length = d.closed.length + 1 :=
      List.length_append
    refine ⟨?_, ?_, Nat.le_succ_of_le h₃⟩
    · rw [Desk.fillUp, length_openOrders_put]
      show d.submitted = 0 + (d.resting s.other).toList.length +
        (d.closed ++ [o.toOrder.fill o.remaining now]).length
      omega
    · show (d.closed ++ [o.toOrder.fill o.remaining now]).length + d.partialFills =
        d.canceled + (d.fills + 1)
      omega

theorem shares_put (w : Side → ℤ) (d : Desk) (s : BookSide) (o : Option (LiveOrder s)) :
    shares w (d.put s o).orders = shares w d.closed +
      (o.elim 0 fun o => w o.side * o.filledQuantity) + d.sideShares w s.other := by
  rw [shares_orders w _ s, sideShares, sideShares, put_resting_self, put_resting_other]
  rfl

/-- **What a step trades**: nothing, or a piece of an open order that the position and the volume
follow. -/
theorem Step.trades (h : Step move allow d d') :
    (d'.position = d.position ∧ d'.volume = d.volume ∧
      ∀ w, shares w d'.orders = shares w d.orders) ∨
    ∃ s o q, d.resting s = some o ∧ 0 < q ∧ q ≤ o.remaining ∧
      d'.position = move d.position s q ∧ d'.volume = d.volume + q ∧
      ∀ w, shares w d'.orders = shares w d.orders + w s.side * q := by
  cases h with
  | place s o hs h0 ha =>
    refine .inl ⟨rfl, rfl, fun w => ?_⟩
    rw [Desk.place, shares_put, shares_orders w d s, sideShares_of_none hs]
    show _ + w o.side * o.filledQuantity + _ = _
    rw [h0, mul_zero]
    rfl
  | cancel s o hs =>
    refine .inl ⟨rfl, rfl, fun w => ?_⟩
    rw [Desk.cancel, shares_put, shares_orders w d s, sideShares_of_some hs]
    show shares w (d.closed ++ [o.toOrder]) + 0 + d.sideShares w s.other = _
    rw [shares_append, shares_singleton, add_zero, o.side_eq]
  | fillPart s o hs q now hpos hlt =>
    refine .inr ⟨s, o, q, hs, hpos, le_of_lt hlt, rfl, rfl, fun w => ?_⟩
    rw [Desk.fillPart, shares_put, shares_orders w d s, sideShares_of_some hs]
    show shares w d.closed + w o.side * (o.filledQuantity + q) + d.sideShares w s.other = _
    rw [o.side_eq]
    ring
  | fillUp s o hs now =>
    refine .inr ⟨s, o, o.remaining, hs, o.remaining_pos, le_refl _, rfl, rfl, fun w => ?_⟩
    rw [Desk.fillUp, shares_put, shares_orders w d s, sideShares_of_some hs]
    show shares w (d.closed ++ [o.toOrder.fill o.remaining now]) + 0 + d.sideShares w s.other = _
    rw [shares_append, shares_singleton]
    show _ + w o.side * (o.filledQuantity + o.remaining) + 0 + _ = _
    rw [o.side_eq]
    ring

/-- The volume counts every filled share once. -/
def VolumeBalance (d : Desk) : Prop := d.volume = shares (fun _ => 1) d.orders

theorem Step.volumeBalance (h : Step move allow d d') (hd : VolumeBalance d) :
    VolumeBalance d' := by
  unfold VolumeBalance at hd ⊢
  rcases h.trades with ⟨-, hv, hs⟩ | ⟨s, o, q, -, -, -, -, hv, hs⟩
  · rw [hv, hs, hd]
  · rw [hv, hs, hd, one_mul]

/-- Bought shares count up, sold shares down. -/
def sideSign : Side → ℤ
  | .buy => 1
  | .sell => -1
  | .unnamed _ _ => 0

/-- The position is what was bought less what was sold. -/
def PositionBalance (d : Desk) : Prop := d.position = shares sideSign d.orders

/-- **No share is lost** while the limit holds, if the arithmetic is exact within it. -/
theorem Step.positionBalance {L Q : ℤ}
    (hmove : ∀ p s q, |p| ≤ L → 0 < q → q ≤ Q → |p + BookSide.sign s * q| ≤ L →
      move p s q = p + s.sign * q)
    (h : Step move allow d d') (hL : Within L Q d) (hd : PositionBalance d) :
    PositionBalance d' := by
  unfold PositionBalance at hd ⊢
  rcases h.trades with ⟨hp, -, hs⟩ | ⟨s, o, q, ho, hpos, hle, hp, -, hs⟩
  · rw [hp, hs, hd]
  · have hsign : sideSign s.side = s.sign := by cases s <;> rfl
    rw [hp, hs, hL.fill ho hpos hle hmove, hd, hsign]

/-- The filled quantity on a side of a list of orders. -/
def filledOn (side : Side) (l : List Order) : ℤ :=
  ((l.filter (·.side = side)).map Order.filledQuantity).sum

theorem shares_one (l : List Order) :
    shares (fun _ => 1) l = (l.map Order.filledQuantity).sum := by
  simp [shares]

theorem shares_sideSign (l : List Order) :
    shares sideSign l = filledOn .buy l - filledOn .sell l := by
  induction l with
  | nil => rfl
  | cons o l ih =>
    have hcons : shares sideSign (o :: l) = sideSign o.side * o.filledQuantity +
        shares sideSign l := List.sum_cons
    unfold filledOn at ih ⊢
    rw [hcons, ih]
    cases ho : o.side with
    | buy => simp [ho, sideSign, add_sub_assoc]
    | sell => simp [ho, sideSign]; ring
    | unnamed raw h => simp [ho, sideSign]

end Desk

end Lob
