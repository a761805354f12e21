import LobMarketMaker.Pipeline.Accounts
import Mathlib.Algebra.Order.BigOperators.Group.List

/-!
# The record of the orders

Every order the pipeline has ever submitted is open or closed in its engine, and only three
operations touch the orders: a side is canceled, an order is submitted, a trade fills what it hits.

* `Conserves`: an assertion that the three operations keep, and that looks at nothing but the record,
  is kept by every call (`Conserves.process`, `Conserves.onClock`, `Conserves.after`);
* `Order.Advances`, `Fills.advances`: a trade moves each order it finds forward;
* `Filed`: identifiers are given out once each, orders stay within the risk limits;
* **`order_record`**.
-/

set_option autoImplicit false

namespace Lob

open Foundation

namespace Pipeline

variable {F : Type} [Double F]

/-! ## What keeps the record -/

/-- The pipelines agree on the orders and on what their fills did to the portfolio. -/
structure SameRecord (p q : Pipeline F) : Prop where
  exec : q.exec = p.exec
  risk : q.risk = p.risk
  nextOrderId : q.nextOrderId = p.nextOrderId
  submitted : q.stats.quotesSubmitted = p.stats.quotesSubmitted
  position : q.portfolio.state.position = p.portfolio.state.position
  avgEntryPrice : q.portfolio.state.avgEntryPrice = p.portfolio.state.avgEntryPrice
  realizedPnl : q.portfolio.state.realizedPnl = p.portfolio.state.realizedPnl
  volume : q.portfolio.state.totalVolumeTraded = p.portfolio.state.totalVolumeTraded
  turnover : q.portfolio.state.turnover = p.portfolio.state.turnover

theorem SameRecord.refl (p : Pipeline F) : SameRecord p p :=
  ⟨rfl, rfl, rfl, rfl, rfl, rfl, rfl, rfl, rfl⟩

/-- The operations on orders keep `A`, which looks at nothing but their record. -/
structure Conserves (host : Host F) (A : Pipeline F → Prop) : Prop where
  congr : ∀ {p q}, A p → SameRecord p q → A q
  cancelSide : ∀ {p} s now, A p → A (p.cancelSide s now)
  submit : ∀ {p} s price size ref now, A p → A (p.submit host s price size ref now)
  takeFills : ∀ {p} ev, A p → A (p.takeFills host ev)

namespace Conserves

variable {host : Host F} {A : Pipeline F → Prop} {p : Pipeline F}

theorem blind (h : Conserves host A) : Blind A :=
  blind_of (fun _ hp => h.congr hp ⟨rfl, rfl, rfl, rfl, rfl, rfl, rfl, rfl, rfl⟩)
    (fun _ hp => h.congr hp ⟨rfl, rfl, rfl, rfl, rfl, rfl, rfl, rfl, rfl⟩)

theorem cancelRestingQuotes (h : Conserves host A) (now : Timestamp) (hp : A p) :
    A (p.cancelRestingQuotes now) :=
  h.cancelSide .ask now (h.cancelSide .bid now hp)

theorem intake (h : Conserves host A) (ev : MarketEvent) (hp : A p) : A (p.intake ev) := by
  have ht : A (p.track ev) :=
    h.congr hp ⟨rfl, rfl, rfl, rfl, rfl, rfl, rfl, rfl, rfl⟩
  unfold Pipeline.intake
  split_ifs
  · exact h.congr (h.cancelRestingQuotes ev.timestamp ht)
      ⟨rfl, rfl, rfl, rfl, rfl, rfl, rfl, rfl, rfl⟩
  · exact ht

theorem execute (h : Conserves host A) (ev : MarketEvent) (hp : A p) : A (p.execute host ev) := by
  have hf := h.takeFills ev hp
  unfold Pipeline.execute mark
  cases ((p.takeFills host ev).book.midPrice : Option F) with
  | none => exact hf
  | some mid => exact h.congr hf ⟨rfl, rfl, rfl, rfl, rfl, rfl, rfl, rfl, rfl⟩

theorem requoteSides (h : Conserves host A) (now : Timestamp) (hp : A p) :
    A (p.requoteSides host now) := by
  refine requoteSides_rule (fun q s _ hq => ?_) (fun q s _ hq => ?_) hp
  · unfold withdraw
    split_ifs
    · exact hq
    · exact h.cancelSide s now hq
  · unfold replace
    split_ifs
    · exact h.submit s _ _ _ now (h.cancelSide s now hq)
    · exact hq

theorem settle (h : Conserves host A) (ev : MarketEvent) (hp : A p) : A (p.settle host ev) := by
  unfold Pipeline.settle
  split_ifs
  · exact h.cancelRestingQuotes ev.timestamp
      (h.congr hp ⟨rfl, rfl, rfl, rfl, rfl, rfl, rfl, rfl, rfl⟩)
  · exact requote_rule h.blind h.blind (fun q hq => h.requoteSides ev.timestamp hq) hp
  · exact hp

/-- **A call keeps what the operations on orders keep.** -/
theorem process (h : Conserves host A) (ev : MarketEvent) (hp : A p) : A (p.process host ev) := by
  by_cases hd : p.outOfOrder ev = true
  · rw [process_dropped hd]
    exact h.congr hp ⟨rfl, rfl, rfl, rfl, rfl, rfl, rfl, rfl, rfl⟩
  · refine process_rule h.blind h.blind h.blind (by simpa using hd) ?_ ?_ ?_ ?_
    · exact h.intake ev (h.congr hp ⟨rfl, rfl, rfl, rfl, rfl, rfl, rfl, rfl, rfl⟩)
    · exact fun q hq => h.congr hq ⟨rfl, rfl, rfl, rfl, rfl, rfl, rfl, rfl, rfl⟩
    · exact fun q hq => h.execute ev hq
    · exact fun q hq => h.settle ev hq

theorem onClock (h : Conserves host A) (now : Timestamp) (hp : A p) : A (p.onClock now) := by
  rcases onClock_cases (p := p) now with hc | ⟨ts, -, -, -, hc⟩ <;> rw [hc]
  · exact hp
  · exact h.cancelRestingQuotes now
      (h.congr hp ⟨rfl, rfl, rfl, rfl, rfl, rfl, rfl, rfl, rfl⟩)

/-- **Run lemma.** -/
theorem after (h : Conserves host A) {symbol : Symbol} {cfg : PipelineConfig F}
    (h0 : A (new symbol cfg))
    (calls : List Call) : A (after host symbol cfg calls) := by
  refine run_invariant (call host) (P := A) (fun p c hp => ?_) h0 calls
  cases c with
  | process ev => exact h.process ev hp
  | onClock now => exact h.onClock now hp

end Conserves

end Pipeline

/-! ## What a trade does to the orders -/

/-- The order is as it was, or has been filled with a quantity that was left. -/
def Order.Advances (now : Timestamp) (o o' : Order) : Prop :=
  o' = o ∨ ∃ q, 0 < q ∧ q ≤ o.remainingQuantity ∧ o' = o.fill q now

theorem Order.Advances.id_eq {now : Timestamp} {o o' : Order} (h : o.Advances now o') :
    o'.id = o.id := by
  rcases h with rfl | ⟨q, -, -, rfl⟩ <;> rfl

/-- **A trade moves the orders it finds forward**; those that are filled leave the map. -/
theorem PaperExecutionEngine.Fills.advances {F : Type} [Double F] {e : PaperExecutionEngine F}
    {ev : MarketEvent} {os os' : List (OrderId × Order)} {rs : List ExecutionReport}
    {gone : List Order} (h : Fills e ev os rs os' gone) :
    ∃ l, l.Perm (gone ++ os'.map Prod.snd) ∧
      List.Forall₂ (Order.Advances ev.timestamp) (os.map Prod.snd) l := by
  induction h with
  | nil => exact ⟨[], .refl _, .nil⟩
  | skip x h ih =>
    obtain ⟨l, hl, hadv⟩ := ih
    refine ⟨x.2 :: l, ?_, .cons (.inl rfl) hadv⟩
    exact (hl.cons x.2).trans List.perm_middle.symm
  | part id o q hit hpos hlt hev h ih =>
    obtain ⟨l, hl, hadv⟩ := ih
    refine ⟨o.fill q ev.timestamp :: l, ?_, .cons (.inr ⟨q, hpos, hlt.le, rfl⟩) hadv⟩
    exact (hl.cons _).trans List.perm_middle.symm
  | full id o hit hpos hev h ih =>
    obtain ⟨l, hl, hadv⟩ := ih
    exact ⟨o.fill o.remainingQuantity ev.timestamp :: l, hl.cons _,
      .cons (.inr ⟨_, hpos, le_refl _, rfl⟩) hadv⟩

theorem PaperExecutionEngine.Fills.keys {F : Type} [Double F] {e : PaperExecutionEngine F}
    {ev : MarketEvent} {os os' : List (OrderId × Order)} {rs : List ExecutionReport}
    {gone : List Order} (h : Fills e ev os rs os' gone) (hos : ∀ x ∈ os, x.2.id = x.1) :
    os'.length ≤ os.length ∧ ∀ x ∈ os', x.2.id = x.1 := by
  induction h with
  | nil => exact ⟨le_refl _, hos⟩
  | skip x h ih =>
    obtain ⟨hx, hos⟩ := List.forall_mem_cons.mp hos
    obtain ⟨hlen, hkeys⟩ := ih hos
    exact ⟨Nat.succ_le_succ hlen, List.forall_mem_cons.mpr ⟨hx, hkeys⟩⟩
  | part id o q hit hpos hlt hev h ih =>
    obtain ⟨hx, hos⟩ := List.forall_mem_cons.mp hos
    obtain ⟨hlen, hkeys⟩ := ih hos
    exact ⟨Nat.succ_le_succ hlen, List.forall_mem_cons.mpr ⟨hx, hkeys⟩⟩
  | full id o hit hpos hev h ih =>
    obtain ⟨-, hos⟩ := List.forall_mem_cons.mp hos
    obtain ⟨hlen, hkeys⟩ := ih hos
    exact ⟨Nat.le_succ_of_le hlen, hkeys⟩

theorem perm_cons_erase_key {os : List (OrderId × Order)} (hk : (os.map Prod.fst).Nodup)
    {x : OrderId × Order} (hx : x ∈ os) : os.Perm (x :: os.filter (·.1 ≠ x.1)) := by
  obtain ⟨pre, post, rfl⟩ := List.append_of_mem hx
  rw [List.map_append, List.map_cons, List.nodup_middle, List.nodup_cons, List.mem_append,
    not_or] at hk
  have hpre : pre.filter (·.1 ≠ x.1) = pre := List.filter_eq_self.mpr fun y hy => by
    simpa using fun he => hk.1.1 (List.mem_map.mpr ⟨y, hy, he⟩)
  have hpost : post.filter (·.1 ≠ x.1) = post := List.filter_eq_self.mpr fun y hy => by
    simpa using fun he => hk.1.2 (List.mem_map.mpr ⟨y, hy, he⟩)
  rw [List.filter_append, List.filter_cons_of_neg (by simp), hpre, hpost]
  exact List.perm_middle

/-- **A cancellation** at most moves an order to those that are closed. -/
theorem PaperExecutionEngine.cancel_record {F : Type} [Double F] {e : PaperExecutionEngine F}
    (hk : (e.openOrders.map Prod.fst).Nodup) (id : OrderId) (now : Timestamp) :
    let e' := (e.cancel id now).2
    (e'.closed ++ e'.openOrders.map Prod.snd).Perm (e.closed ++ e.openOrders.map Prod.snd) ∧
      e'.openOrders.Sublist e.openOrders := by
  unfold cancel
  cases hfind : e.openOrders.find? (·.1 = id) with
  | none => exact ⟨.refl _, .refl _⟩
  | some x =>
    obtain ⟨key, o⟩ := x
    obtain rfl : key = id := by simpa using List.find?_some hfind
    have hperm := (perm_cons_erase_key hk (List.mem_of_find?_eq_some hfind)).map Prod.snd
    refine ⟨?_, List.filter_sublist⟩
    show ((e.closed ++ [o]) ++ (e.openOrders.filter (·.1 ≠ key)).map Prod.snd).Perm _
    rw [List.append_assoc]
    exact (hperm.append_left e.closed).symm

/-! ## Filed orders -/

/-- A limit order of at most `Q` shares, of which as many are filled as it has. -/
structure Order.Sized (Q : Quantity) (o : Order) : Prop where
  limit : o.type = .limit
  positive : 0 < o.quantity
  size_le : o.quantity ≤ Q
  filled_nonneg : 0 ≤ o.filledQuantity
  filled_le : o.filledQuantity ≤ o.quantity

theorem Order.Sized.advances {Q : Quantity} {now : Timestamp} {o o' : Order} (h : o.Sized Q)
    (ha : o.Advances now o') : o'.Sized Q := by
  rcases ha with rfl | ⟨q, hpos, hle, rfl⟩
  · exact h
  · have h₁ := h.filled_nonneg
    unfold Order.remainingQuantity at hle
    refine { h with filled_nonneg := ?_, filled_le := ?_ }
    · show 0 ≤ o.filledQuantity + q
      lia
    · show o.filledQuantity + q ≤ o.quantity
      lia

theorem Order.ids_of_advances {now : Timestamp} {l l' : List Order}
    (h : List.Forall₂ (Order.Advances now) l l') : l'.map Order.id = l.map Order.id := by
  induction h with
  | nil => rfl
  | cons ha h ih => rw [List.map_cons, List.map_cons, ha.id_eq, ih]

theorem Order.sized_of_advances {Q : Quantity} {now : Timestamp} {l l' : List Order}
    (h : List.Forall₂ (Order.Advances now) l l') (hl : ∀ o ∈ l, o.Sized Q) :
    ∀ o ∈ l', o.Sized Q := by
  induction h with
  | nil => exact hl
  | cons ha h ih =>
    obtain ⟨ho, hl⟩ := List.forall_mem_cons.mp hl
    exact List.forall_mem_cons.mpr ⟨ho.advances ha, ih hl⟩

namespace Pipeline

variable {F : Type} [Double F] {limits : RiskLimits F} {p q : Pipeline F}

theorem takeFills_trade (hk : (p.exec.openOrders.map Prod.fst).Nodup) (host : Host F)
    {ev : MarketEvent} (ht : ev.type = .trade) : ∃ rng os' gone,
      p.exec.Fills ev p.exec.openOrders (p.exec.onMarketEvent host ev).1 os' gone ∧
      (p.takeFills host ev).exec =
        p.exec.afterFills rng (p.exec.onMarketEvent host ev).1 os' gone := by
  obtain ⟨rng, os', gone, hfills, hexec⟩ :=
    PaperExecutionEngine.onMarketEvent_fills host hk ht
  refine ⟨rng, os', gone, hfills, ?_⟩
  rw [← hexec]
  exact foldl_applyReport_exec _ _

theorem cancelSide_record (hk : (p.exec.openOrders.map Prod.fst).Nodup) (s : BookSide)
    (now : Timestamp) :
    let q := p.cancelSide s now
    q.risk = p.risk ∧ q.nextOrderId = p.nextOrderId ∧
      q.stats.quotesSubmitted = p.stats.quotesSubmitted ∧ q.orders.Perm p.orders ∧
      q.exec.openOrders.Sublist p.exec.openOrders := by
  unfold cancelSide
  cases p.resting s with
  | none => exact ⟨rfl, rfl, rfl, .refl _, .refl _⟩
  | some quote =>
    obtain ⟨hperm, hsub⟩ := PaperExecutionEngine.cancel_record hk quote.id now
    cases s <;> exact ⟨rfl, rfl, rfl, hperm, hsub⟩

/-- Every order is under its own identifier, given out once, and within the limits. -/
structure Filed (limits : RiskLimits F) (p : Pipeline F) : Prop where
  risk : p.risk = limits
  keys : ∀ x ∈ p.exec.openOrders, x.2.id = x.1
  next : p.nextOrderId = p.stats.quotesSubmitted + 1
  ids : (p.orders.map Order.id).Perm (List.range' 1 p.stats.quotesSubmitted)
  sized : ∀ o ∈ p.orders, o.Sized limits.maxOrderSize
  count : p.exec.openOrderCount ≤ limits.maxOpenOrders

namespace Filed

theorem nodup_ids (h : Filed limits p) : (p.orders.map Order.id).Nodup :=
  h.ids.nodup_iff.mpr (List.nodup_range' ..)

theorem nodup_keys (h : Filed limits p) : (p.exec.openOrders.map Prod.fst).Nodup := by
  have hmap : p.exec.openOrders.map Prod.fst = (p.exec.openOrders.map Prod.snd).map Order.id := by
    rw [List.map_map]
    exact List.map_congr_left fun x hx => (h.keys x hx).symm
  have hids := h.nodup_ids
  rw [orders, List.map_append] at hids
  rw [hmap]
  exact hids.of_append_right

theorem key_lt (h : Filed limits p) {x : OrderId × Order} (hx : x ∈ p.exec.openOrders) :
    x.1 < p.nextOrderId := by
  have hmem : x.2.id ∈ p.orders.map Order.id := List.mem_map_of_mem
    (List.mem_append_right _ (List.mem_map_of_mem hx))
  have hrange := List.mem_range'_1.mp (h.ids.mem_iff.mp hmem)
  rw [h.keys x hx] at hrange
  rw [h.next, Nat.add_comm]
  exact hrange.2

theorem congr (h : Filed limits p) (hpq : SameRecord p q) : Filed limits q where
  risk := hpq.risk.trans h.risk
  keys := by rw [hpq.exec]; exact h.keys
  next := by rw [hpq.nextOrderId, hpq.submitted]; exact h.next
  ids := by
    unfold orders
    rw [hpq.exec, hpq.submitted]
    exact h.ids
  sized := by
    unfold orders
    rw [hpq.exec]
    exact h.sized
  count := by rw [hpq.exec]; exact h.count

theorem cancelSide (h : Filed limits p) (s : BookSide) (now : Timestamp) :
    Filed limits (p.cancelSide s now) := by
  obtain ⟨hrisk, hnext, hsubmitted, hperm, hsub⟩ := cancelSide_record h.nodup_keys s now
  exact
    { risk := hrisk.trans h.risk
      keys := fun x hx => h.keys x (hsub.subset hx)
      next := by rw [hnext, hsubmitted]; exact h.next
      ids := by rw [hsubmitted]; exact (hperm.map Order.id).trans h.ids
      sized := fun o ho => h.sized o (hperm.mem_iff.mp ho)
      count := hsub.length_le.trans h.count }

/-- **A submission** leaves the record alone, or has passed the check and adds one order. -/
theorem submit_record (h : Filed limits p) (host : Host F) (s : BookSide) (price : Price)
    (size : Quantity) (ref : F) (now : Timestamp) :
    SameRecord p (p.submit host s price size ref now) ∨
    ∃ q o, SameRecord q (p.submit host s price size ref now) ∧ q.portfolio = p.portfolio ∧
      q.risk = p.risk ∧ q.nextOrderId = p.nextOrderId + 1 ∧
      q.stats.quotesSubmitted = p.stats.quotesSubmitted + 1 ∧
      q.exec.openOrders.Perm ((p.nextOrderId, o) :: p.exec.openOrders) ∧
      q.orders.Perm (p.orders ++ [o]) ∧ o.id = p.nextOrderId ∧ o.filledQuantity = 0 ∧
      o.Sized limits.maxOrderSize ∧ p.exec.openOrderCount < limits.maxOpenOrders := by
  unfold Pipeline.submit
  dsimp only
  split_ifs with hd
  · exact .inl ⟨rfl, rfl, rfl, rfl, rfl, rfl, rfl, rfl, rfl⟩
  · have hpass := (RiskLimits.check_approved_iff _ _).mp (not_not.mp hd)
    rw [h.risk] at hpass
    have hfresh : ∀ x ∈ p.exec.openOrders, x.1 ≠ p.nextOrderId := fun x hx => (h.key_lt hx).ne
    obtain ⟨os, hos, hexec⟩ := PaperExecutionEngine.submitLimit_fresh host hfresh p.book.symbol
      s.side price size now
    rw [hexec]
    refine .inr ⟨{ p with
      nextOrderId := p.nextOrderId + 1
      exec := { p.exec with totalSubmitted := p.exec.totalSubmitted + 1, openOrders := os }
      stats := { p.stats with quotesSubmitted := p.stats.quotesSubmitted + 1 } }, _, ?_, rfl, rfl,
      rfl, rfl, hos, ?_, rfl, rfl, ?_, hpass.openOrders_lt⟩
    · cases s <;> exact ⟨rfl, rfl, rfl, rfl, rfl, rfl, rfl, rfl, rfl⟩
    · refine ((hos.map Prod.snd).append_left _).trans ?_
      rw [orders, List.append_assoc]
      exact (List.perm_append_singleton _ _).symm.append_left _
    · exact ⟨rfl, hpass.positive, hpass.size_le, le_refl _, hpass.positive.le⟩

theorem submit (h : Filed limits p) (host : Host F) (s : BookSide) (price : Price)
    (size : Quantity) (ref : F) (now : Timestamp) :
    Filed limits (p.submit host s price size ref now) := by
  rcases h.submit_record host s price size ref now with
    hsame | ⟨q, o, hsame, -, hrisk, hnext, hsubmitted, hos, horders, hid, -, hsized, hcount⟩
  · exact h.congr hsame
  · refine Filed.congr (p := q) ⟨hrisk.trans h.risk, fun x hx => ?_, ?_, ?_, fun o' ho' => ?_, ?_⟩
      hsame
    · rcases List.mem_cons.mp (hos.mem_iff.mp hx) with rfl | hx
      · exact hid
      · exact h.keys x hx
    · rw [hnext, hsubmitted, h.next]
    · refine (horders.map Order.id).trans (.trans (.of_eq List.map_append) ?_)
      rw [List.map_singleton, hid, hsubmitted, h.next, List.range'_1_concat, Nat.add_comm 1]
      exact h.ids.append_right _
    · rcases List.mem_append.mp (horders.mem_iff.mp ho') with ho' | ho'
      · exact h.sized o' ho'
      · rwa [List.mem_singleton.mp ho']
    · rw [PaperExecutionEngine.openOrderCount, hos.length_eq]
      exact hcount

theorem foldl_applyReport_counters (rs : List ExecutionReport) (p : Pipeline F) :
    (rs.foldl applyReport p).risk = p.risk ∧
      (rs.foldl applyReport p).nextOrderId = p.nextOrderId ∧
      (rs.foldl applyReport p).stats.quotesSubmitted = p.stats.quotesSubmitted := by
  induction rs generalizing p with
  | nil => exact ⟨rfl, rfl, rfl⟩
  | cons r rs ih =>
    obtain ⟨h₁, h₂, h₃⟩ := ih (p.applyReport r)
    rw [applyReport_eq] at h₁ h₂ h₃
    rw [List.foldl_cons, applyReport_eq]
    exact ⟨h₁, h₂, h₃⟩

/-- **A trade** fills orders of the record and adds none. -/
theorem takeFills (h : Filed limits p) (host : Host F) (ev : MarketEvent) :
    Filed limits (p.takeFills host ev) := by
  by_cases ht : ev.type = .trade
  · obtain ⟨rng, os', gone, hfills, he⟩ := takeFills_trade h.nodup_keys host ht
    obtain ⟨l, hl, hadv⟩ := hfills.advances
    obtain ⟨hlen, hkeys⟩ := hfills.keys h.keys
    have horders : (p.takeFills host ev).orders.Perm (p.exec.closed ++ l) := by
      rw [orders, he]
      show ((p.exec.closed ++ gone) ++ os'.map Prod.snd).Perm _
      rw [List.append_assoc]
      exact (hl.append_left _).symm
    obtain ⟨hrisk, hnext, hsubmitted⟩ := foldl_applyReport_counters
      (p.exec.onMarketEvent host ev).1 { p with exec := (p.exec.onMarketEvent host ev).2 }
    refine ⟨hrisk.trans h.risk, ?_, hnext.trans (h.next.trans (congrArg (· + 1) hsubmitted.symm)),
      ?_, fun o ho => ?_, ?_⟩
    · rw [he]
      exact hkeys
    · refine (horders.map Order.id).trans ?_
      rw [List.map_append, Order.ids_of_advances hadv, ← List.map_append]
      exact h.ids.trans (.of_eq (congrArg (List.range' 1) hsubmitted.symm))
    · rcases List.mem_append.mp (horders.mem_iff.mp ho) with ho | ho
      · exact h.sized o (List.mem_append_left _ ho)
      · exact Order.sized_of_advances hadv
          (fun o ho => h.sized o (List.mem_append_right _ ho)) o ho
    · rw [he]
      exact hlen.trans h.count
  · rw [takeFills_of_ne ht]
    exact h

end Filed

theorem conserves_filed (host : Host F) (limits : RiskLimits F) : Conserves host (Filed limits) where
  congr h hpq := h.congr hpq
  cancelSide s now h := h.cancelSide s now
  submit s price size ref now h := h.submit host s price size ref now
  takeFills ev h := h.takeFills host ev

theorem filed_new (symbol : Symbol) (cfg : PipelineConfig F) :
    Filed cfg.riskLimits (new symbol cfg) where
  risk := rfl
  keys := List.forall_mem_nil _
  next := rfl
  ids := .refl _
  sized := List.forall_mem_nil _
  count := Nat.zero_le _

theorem sum_filled_le {Q : Quantity} {l : List Order} (h : ∀ o ∈ l, o.Sized Q) :
    (l.map Order.filledQuantity).sum ≤ l.length * Q := by
  rw [← List.length_map Order.filledQuantity, ← nsmul_eq_mul]
  refine List.sum_le_card_nsmul _ _ fun x hx => ?_
  obtain ⟨o, ho, rfl⟩ := List.mem_map.mp hx
  exact (h o ho).filled_le.trans (h o ho).size_le

/-- **Every order is on record and within the risk limits.** In every reachable state the
identifiers of the orders ever submitted are `1, …, n`, each once; each is a limit order of at most
`maxOrderSize` shares and never filled beyond its quantity; at most `maxOpenOrders` are open; and
the volume traded is bounded by the sizes that were let through. -/
theorem order_record (host : Host F) (symbol : Symbol) (cfg : PipelineConfig F)
    (calls : List Call) :
    let p := after host symbol cfg calls
    (p.orders.map Order.id).Perm (List.range' 1 p.stats.quotesSubmitted) ∧
    (∀ o ∈ p.orders, o.Sized cfg.riskLimits.maxOrderSize) ∧
    p.exec.openOrderCount ≤ cfg.riskLimits.maxOpenOrders ∧
    p.portfolio.state.totalVolumeTraded ≤
      p.stats.quotesSubmitted * cfg.riskLimits.maxOrderSize := by
  intro p
  have hf : Filed cfg.riskLimits p := (conserves_filed host _).after (filed_new symbol cfg) calls
  obtain ⟨d, ht, hb, hv⟩ := after_tracks host symbol cfg calls
    (I := fun d => d.Balanced ∧ d.VolumeBalance)
    (fun _ _ hstep hd => ⟨hstep.balanced hd.1, hstep.volumeBalance hd.2⟩)
    ⟨⟨rfl, rfl, le_refl _⟩, rfl⟩
  have hbalance := ht.ordersBalance hb hv
  refine ⟨hf.ids, hf.sized, hf.count, ?_⟩
  have hnonneg : 0 ≤ (p.orders.map Order.filledQuantity).sum := by
    refine List.sum_nonneg fun x hx => ?_
    obtain ⟨o, ho, rfl⟩ := List.mem_map.mp hx
    exact (hf.sized o ho).filled_nonneg
  rw [ht.totalVolume hv, ← hbalance.orders]
  exact (wrapI64_le (by lia)).trans (sum_filled_le hf.sized)

end Pipeline

end Lob
