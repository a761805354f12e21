import LobMarketMaker.Execution.PaperExecutionEngine
import LobMarketMaker.Foundation.Runs

/-!
# The life of an order

* `Life quantity rs filled isOpen`: the reports `rs` tell the life of an order of this quantity: it is
  acknowledged, filled in parts, and filled or canceled at last;
* `Lives os closed log ledger`: the log tells the lives of the open orders `os` and of the `closed`
  ones, which together are the orders of the `ledger`;
* `Lives.submitLimit`, `Lives.cancel`, `Lives.onMarketEvent`: every operation keeps that;
* **`order_lifecycle`**.
-/

set_option autoImplicit false

namespace Lob

open Foundation

/-! ## One order -/

/-- The reports of an order, oldest first, the shares they fill, and whether it is still open. -/
inductive Life (quantity : ℤ) : List ExecutionReport → ℤ → Bool → Prop
  | new (r : ExecutionReport) (status : r.status = .new) (fill : r.fillQuantity = 0)
      (remaining : r.remainingQuantity = quantity) : Life quantity [r] 0 true
  | part {rs : List ExecutionReport} {filled : ℤ} (h : Life quantity rs filled true)
      (r : ExecutionReport) (status : r.status = .partiallyFilled) (fill : 0 < r.fillQuantity)
      (lt : filled + r.fillQuantity < quantity)
      (remaining : r.remainingQuantity = quantity - (filled + r.fillQuantity)) :
      Life quantity (rs ++ [r]) (filled + r.fillQuantity) true
  | full {rs : List ExecutionReport} {filled : ℤ} (h : Life quantity rs filled true)
      (r : ExecutionReport) (status : r.status = .filled) (fill : 0 < r.fillQuantity)
      (eq : filled + r.fillQuantity = quantity)
      (remaining : r.remainingQuantity = quantity - (filled + r.fillQuantity)) :
      Life quantity (rs ++ [r]) (filled + r.fillQuantity) false
  | cancel {rs : List ExecutionReport} {filled : ℤ} (h : Life quantity rs filled true)
      (r : ExecutionReport) (status : r.status = .canceled) (fill : r.fillQuantity = 0)
      (remaining : r.remainingQuantity = quantity - filled) :
      Life quantity (rs ++ [r]) filled false

/-- The shares that reports fill. -/
def filledBy (rs : List ExecutionReport) : ℤ := (rs.map ExecutionReport.fillQuantity).sum

@[simp] theorem filledBy_concat (rs : List ExecutionReport) (r : ExecutionReport) :
    filledBy (rs ++ [r]) = filledBy rs + r.fillQuantity := by simp [filledBy]

/-- A report after which its order is closed. -/
def ExecutionReport.Closes (r : ExecutionReport) : Prop :=
  r.status = .filled ∨ r.status = .canceled

/-- What a report says, given the reports before it. -/
structure ExecutionReport.Tells (quantity : ℤ) (pre : List ExecutionReport)
    (r : ExecutionReport) : Prop where
  remaining : r.remainingQuantity = quantity - filledBy (pre ++ [r])
  filled : r.status = .filled ↔ r.remainingQuantity = 0
  fill_pos : r.status = .partiallyFilled ∨ r.status = .filled → 0 < r.fillQuantity
  fill_zero : r.status = .new ∨ r.status = .canceled → r.fillQuantity = 0

namespace Life

variable {quantity filled : ℤ} {rs : List ExecutionReport} {isOpen : Bool}

theorem sum (h : Life quantity rs filled isOpen) (hq : 0 < quantity) :
    filledBy rs = filled ∧ filled ≤ quantity ∧ (isOpen = true → filled < quantity) := by
  induction h with
  | new r hs hf hr => exact ⟨by simp [filledBy, hf], hq.le, fun _ => hq⟩
  | part h r hs hf hlt hr ih =>
    rw [filledBy_concat, ih.1]
    exact ⟨rfl, hlt.le, fun _ => hlt⟩
  | full h r hs hf heq hr ih =>
    rw [filledBy_concat, ih.1]
    exact ⟨rfl, heq.le, fun hc => nomatch hc⟩
  | cancel h r hs hf hr ih =>
    rw [filledBy_concat, ih.1, hf, add_zero]
    exact ⟨rfl, (ih.2.2 rfl).le, fun hc => nomatch hc⟩

theorem concat_eq_append_cons {α : Type} {l pre post : List α} {x y : α}
    (h : l ++ [x] = pre ++ y :: post) :
    (post = [] ∧ y = x ∧ pre = l) ∨ ∃ post', post = post' ++ [x] ∧ l = pre ++ y :: post' := by
  cases post using List.reverseRecOn with
  | nil =>
    obtain ⟨h₁, h₂⟩ := List.append_inj' h rfl
    exact .inl ⟨rfl, (List.cons.inj h₂).1.symm, h₁.symm⟩
  | append_singleton post z =>
    rw [← List.cons_append, ← List.append_assoc] at h
    obtain ⟨h₁, h₂⟩ := List.append_inj' h rfl
    exact .inr ⟨post, by rw [(List.cons.inj h₂).1], h₁⟩

/-- **Every report tells the truth**, and only the last one can close the order. -/
theorem split (h : Life quantity rs filled isOpen) (hq : 0 < quantity)
    {pre post : List ExecutionReport} {r : ExecutionReport} (hrs : rs = pre ++ r :: post) :
    r.Tells quantity pre ∧ (r.Closes → post = [] ∧ isOpen = false) := by
  induction h generalizing post with
  | new x hs hf hr =>
    rw [← List.nil_append [x]] at hrs
    rcases concat_eq_append_cons hrs with ⟨-, rfl, rfl⟩ | ⟨post', -, hnil⟩
    · refine ⟨⟨?_, ?_, ?_, fun _ => hf⟩, ?_⟩
      · simp [filledBy, hf, hr]
      · simp [hs, hr, hq.ne']
      · simp [hs]
      · simp [ExecutionReport.Closes, hs]
    · simp at hnil
  | part h x hs hf hlt hr ih =>
    rcases concat_eq_append_cons hrs with ⟨-, rfl, rfl⟩ | ⟨post', rfl, rfl⟩
    · refine ⟨⟨?_, ?_, fun _ => hf, ?_⟩, ?_⟩
      · rw [filledBy_concat, (h.sum hq).1, hr]
      · simp [hs, hr]
        lia
      · simp [hs]
      · simp [ExecutionReport.Closes, hs]
    · exact ⟨(ih rfl).1, fun hc => nomatch ((ih rfl).2 hc).2⟩
  | full h x hs hf heq hr ih =>
    rcases concat_eq_append_cons hrs with ⟨rfl, rfl, rfl⟩ | ⟨post', rfl, rfl⟩
    · refine ⟨⟨?_, ?_, fun _ => hf, ?_⟩, fun _ => ⟨rfl, rfl⟩⟩
      · rw [filledBy_concat, (h.sum hq).1, hr]
      · simp [hs, hr, heq]
      · simp [hs]
    · exact ⟨(ih rfl).1, fun hc => nomatch ((ih rfl).2 hc).2⟩
  | cancel h x hs hf hr ih =>
    rcases concat_eq_append_cons hrs with ⟨rfl, rfl, rfl⟩ | ⟨post', rfl, rfl⟩
    · refine ⟨⟨?_, ?_, ?_, fun _ => hf⟩, fun _ => ⟨rfl, rfl⟩⟩
      · rw [filledBy_concat, (h.sum hq).1, hr, hf, add_zero]
      · have := (h.sum hq).2.2 rfl
        simp [hs, hr]
        lia
      · simp [hs]
    · exact ⟨(ih rfl).1, fun hc => nomatch ((ih rfl).2 hc).2⟩

end Life

/-! ## The log of an engine -/

/-- The reports of one order. -/
def reportsOf (log : List ExecutionReport) (id : OrderId) : List ExecutionReport :=
  log.filter (·.orderId = id)

theorem reportsOf_concat_self {log : List ExecutionReport} {r : ExecutionReport} {id : OrderId}
    (h : r.orderId = id) : reportsOf (log ++ [r]) id = reportsOf log id ++ [r] := by
  unfold reportsOf
  rw [List.filter_append, List.filter_singleton]
  simp [h]

theorem reportsOf_concat_other {log : List ExecutionReport} {r : ExecutionReport} {id : OrderId}
    (h : r.orderId ≠ id) : reportsOf (log ++ [r]) id = reportsOf log id := by
  unfold reportsOf
  rw [List.filter_append, List.filter_singleton]
  simp [h]

/-- What identifies an order in the ledger. -/
def Order.stub (o : Order) : OrderId × Quantity := (o.id, o.quantity)

/-- The log tells the lives of the orders in the ledger: `os` are open, `closed` are not. -/
structure Lives (os : List (OrderId × Order)) (closed : List Order) (log : List ExecutionReport)
    (ledger : List (OrderId × Quantity)) : Prop where
  orders : (os.map (Order.stub ∘ Prod.snd) ++ closed.map Order.stub).Perm ledger
  keys : ∀ x ∈ os, x.1 = x.2.id
  open_life : ∀ x ∈ os, Life x.2.quantity (reportsOf log x.2.id) x.2.filledQuantity true
  closed_life : ∀ o ∈ closed, Life o.quantity (reportsOf log o.id) o.filledQuantity false
  logged : ∀ r ∈ log, r.orderId ∈ ledger.map Prod.fst

namespace Lives

variable {os os' : List (OrderId × Order)} {closed : List Order} {log : List ExecutionReport}
  {ledger : List (OrderId × Quantity)}

theorem perm (h : Lives os closed log ledger) (hp : os'.Perm os) :
    Lives os' closed log ledger where
  orders := ((hp.map _).append_right _).trans h.orders
  keys x hx := h.keys x (hp.mem_iff.mp hx)
  open_life x hx := h.open_life x (hp.mem_iff.mp hx)
  closed_life := h.closed_life
  logged := h.logged

theorem nodup_ids (h : Lives os closed log ledger) (hl : (ledger.map Prod.fst).Nodup) :
    (os.map (fun x => x.2.id) ++ closed.map Order.id).Nodup := by
  have hp := h.orders.map Prod.fst
  rw [List.map_append, List.map_map, List.map_map] at hp
  exact hp.nodup_iff.mpr hl

theorem nodup_keys (h : Lives os closed log ledger) (hl : (ledger.map Prod.fst).Nodup) :
    (os.map Prod.fst).Nodup := by
  rw [List.map_congr_left h.keys]
  exact (List.nodup_append.mp (h.nodup_ids hl)).1

theorem others {id : OrderId} {o : Order} {r : ExecutionReport}
    (h : Lives ((id, o) :: os) closed log ledger) (hl : (ledger.map Prod.fst).Nodup)
    (hid : r.orderId = o.id) :
    (∀ x ∈ os, Life x.2.quantity (reportsOf (log ++ [r]) x.2.id) x.2.filledQuantity true) ∧
    (∀ c ∈ closed, Life c.quantity (reportsOf (log ++ [r]) c.id) c.filledQuantity false) ∧
    ∀ r' ∈ log ++ [r], r'.orderId ∈ ledger.map Prod.fst := by
  have hnodup := h.nodup_ids hl
  rw [List.map_cons, List.cons_append, List.nodup_cons, List.mem_append, not_or] at hnodup
  obtain ⟨⟨hos, hclosed⟩, -⟩ := hnodup
  refine ⟨fun x hx => ?_, fun c hc => ?_, fun r' hr' => ?_⟩
  · rw [reportsOf_concat_other]
    · exact h.open_life x (List.mem_cons_of_mem _ hx)
    · rw [hid]
      exact fun he => hos (List.mem_map.mpr ⟨x, hx, he.symm⟩)
  · rw [reportsOf_concat_other]
    · exact h.closed_life c hc
    · rw [hid]
      exact fun he => hclosed (List.mem_map.mpr ⟨c, hc, he.symm⟩)
  · rcases List.mem_append.mp hr' with hr' | hr'
    · exact h.logged r' hr'
    · rw [List.mem_singleton.mp hr', hid]
      exact List.mem_map.mpr ⟨o.stub, h.orders.mem_iff.mp List.mem_cons_self, rfl⟩

/-- **One report for an open order**, which stays open. -/
theorem report {id : OrderId} {o : Order} (o' : Order) {r : ExecutionReport}
    (h : Lives ((id, o) :: os) closed log ledger) (hl : (ledger.map Prod.fst).Nodup)
    (hid : r.orderId = o.id) (hstub : o'.stub = o.stub)
    (hlife : Life o.quantity (reportsOf log o.id ++ [r]) o'.filledQuantity true) :
    Lives ((id, o') :: os) closed (log ++ [r]) ledger := by
  obtain ⟨hos, hclosed, hlogged⟩ := h.others hl hid
  have hid' : o'.id = o.id := congrArg Prod.fst hstub
  have hqty : o'.quantity = o.quantity := congrArg Prod.snd hstub
  refine ⟨?_, ?_, ?_, hclosed, hlogged⟩
  · have ho := h.orders
    rw [List.map_cons] at ho ⊢
    show ((o'.stub :: os.map (Order.stub ∘ Prod.snd)) ++ _).Perm ledger
    rw [hstub]
    exact ho
  · intro x hx
    rcases List.mem_cons.mp hx with rfl | hx
    · exact (h.keys _ List.mem_cons_self).trans hid'.symm
    · exact h.keys x (List.mem_cons_of_mem _ hx)
  · intro x hx
    rcases List.mem_cons.mp hx with rfl | hx
    · show Life o'.quantity (reportsOf (log ++ [r]) o'.id) o'.filledQuantity true
      rw [hqty, hid', reportsOf_concat_self hid]
      exact hlife
    · exact hos x hx

/-- **The last report for an open order**, which leaves the engine. -/
theorem close {id : OrderId} {o : Order} (o' : Order) {r : ExecutionReport}
    (h : Lives ((id, o) :: os) closed log ledger) (hl : (ledger.map Prod.fst).Nodup)
    (hid : r.orderId = o.id) (hstub : o'.stub = o.stub)
    (hlife : Life o.quantity (reportsOf log o.id ++ [r]) o'.filledQuantity false) :
    Lives os (closed ++ [o']) (log ++ [r]) ledger := by
  obtain ⟨hos, hclosed, hlogged⟩ := h.others hl hid
  have hid' : o'.id = o.id := congrArg Prod.fst hstub
  have hqty : o'.quantity = o.quantity := congrArg Prod.snd hstub
  refine ⟨?_, fun x hx => h.keys x (List.mem_cons_of_mem _ hx), hos, ?_, hlogged⟩
  · refine List.Perm.trans ?_ h.orders
    rw [List.map_append, List.map_singleton, hstub, ← List.append_assoc]
    exact List.perm_append_comm
  · intro c hc
    rcases List.mem_append.mp hc with hc | hc
    · exact hclosed c hc
    · rw [List.mem_singleton.mp hc, hqty, hid', reportsOf_concat_self hid]
      exact hlife

/-! ### The operations -/

section Operations

variable {F : Type} [Double F] {e : PaperExecutionEngine F} {ev : MarketEvent}
  {rs : List ExecutionReport} {gone : List Order}

theorem fills (hf : e.Fills ev os rs os' gone) (pre : List (OrderId × Order))
    (h : Lives (pre ++ os) closed log ledger) (hl : (ledger.map Prod.fst).Nodup) :
    Lives (pre ++ os') (closed ++ gone) (log ++ rs) ledger := by
  induction hf generalizing closed log pre with
  | nil => simpa using h
  | skip x hf ih =>
    rw [List.append_cons] at h ⊢
    exact ih (pre ++ [x]) h
  | @part os rs os' gone id o q hit hpos hlt hev hf ih =>
    have h₁ := (h.perm List.perm_middle.symm).report (o.fill q ev.timestamp)
      (r := e.fillReport (o.fill q ev.timestamp) o.price q ev.timestamp) hl rfl rfl ?_
    · rw [List.append_cons, ← List.singleton_append (l := rs), ← List.append_assoc]
      refine ih (pre ++ [(id, o.fill q ev.timestamp)]) (h₁.perm ?_)
      rw [List.append_assoc]
      exact List.perm_middle
    · have hlife := h.open_life (id, o) (List.mem_append_right _ List.mem_cons_self)
      have hrem : (o.fill q ev.timestamp).remainingQuantity = o.remainingQuantity - q :=
        o.fill_remaining q ev.timestamp
      have hdef : o.remainingQuantity = o.quantity - o.filledQuantity := rfl
      refine .part hlife _ ?_ hpos ?_ ?_
      · exact (o.fill_status q ev.timestamp).trans (if_neg hlt.ne')
      · show o.filledQuantity + q < o.quantity
        lia
      · show (o.fill q ev.timestamp).remainingQuantity = o.quantity - (o.filledQuantity + q)
        lia
  | @full os rs os' gone id o hit hpos hev hf ih =>
    have h₁ := (h.perm List.perm_middle.symm).close (o.fill o.remainingQuantity ev.timestamp)
      (r := e.fillReport (o.fill o.remainingQuantity ev.timestamp) o.price o.remainingQuantity
        ev.timestamp) hl rfl rfl ?_
    · rw [← List.singleton_append (l := gone), ← List.singleton_append (l := rs),
        ← List.append_assoc, ← List.append_assoc]
      exact ih pre h₁
    · have hlife := h.open_life (id, o) (List.mem_append_right _ List.mem_cons_self)
      have hrem := o.fill_remaining o.remainingQuantity ev.timestamp
      have hdef : o.remainingQuantity = o.quantity - o.filledQuantity := rfl
      refine .full hlife _ ?_ hpos ?_ ?_
      · exact (o.fill_status o.remainingQuantity ev.timestamp).trans (if_pos rfl)
      · show o.filledQuantity + o.remainingQuantity = o.quantity
        lia
      · show (o.fill o.remainingQuantity ev.timestamp).remainingQuantity =
          o.quantity - (o.filledQuantity + o.remainingQuantity)
        lia

theorem onMarketEvent (host : Host F) (ev : MarketEvent)
    (h : Lives e.openOrders e.closed log ledger) (hl : (ledger.map Prod.fst).Nodup) :
    Lives (e.onMarketEvent host ev).2.openOrders (e.onMarketEvent host ev).2.closed
      (log ++ (e.onMarketEvent host ev).1) ledger := by
  by_cases ht : ev.type = .trade
  · obtain ⟨rng, os', gone, hfills, hexec⟩ :=
      PaperExecutionEngine.onMarketEvent_fills host (h.nodup_keys hl) ht
    rw [hexec]
    exact h.fills hfills [] hl
  · rw [PaperExecutionEngine.onMarketEvent_of_ne ht, List.append_nil]
    exact h

/-- **A submission** under a fresh identifier. -/
theorem submitLimit (host : Host F) (h : Lives e.openOrders e.closed log ledger) {id : OrderId}
    (hid : id ∉ ledger.map Prod.fst) (symbol : Symbol) (side : Side) (price : Price)
    (quantity : Quantity) (now : Timestamp) :
    Lives (e.submitLimit host id symbol side price quantity now).2.openOrders
      (e.submitLimit host id symbol side price quantity now).2.closed
      (log ++ [(e.submitLimit host id symbol side price quantity now).1])
      (ledger ++ [(id, quantity)]) := by
  have hmem : ∀ o : OrderId × Quantity, o ∈ e.openOrders.map (Order.stub ∘ Prod.snd) ++
      e.closed.map Order.stub → o.1 ≠ id := by
    rintro o ho rfl
    exact hid (List.mem_map.mpr ⟨o, h.orders.mem_iff.mp ho, rfl⟩)
  have hopen : ∀ x ∈ e.openOrders, x.2.id ≠ id := fun x hx =>
    hmem x.2.stub (List.mem_append_left _ (List.mem_map.mpr ⟨x, hx, rfl⟩))
  have hclosed : ∀ o ∈ e.closed, o.id ≠ id := fun o ho =>
    hmem o.stub (List.mem_append_right _ (List.mem_map.mpr ⟨o, ho, rfl⟩))
  have hlog : reportsOf log id = [] := by
    refine List.filter_eq_nil_iff.mpr fun r hr hrid => hid ?_
    rw [← of_decide_eq_true hrid]
    exact h.logged r hr
  obtain ⟨os, hos, hexec⟩ := PaperExecutionEngine.submitLimit_fresh host (e := e)
    (fun x hx => by rw [h.keys x hx]; exact hopen x hx) symbol side price quantity now
  have hreport : (e.submitLimit host id symbol side price quantity now).1.orderId = id := rfl
  rw [hexec]
  refine ⟨?_, fun x hx => ?_, fun x hx => ?_, fun o ho => ?_, fun r hr => ?_⟩
  · refine ((hos.map _).append_right _).trans ?_
    rw [List.map_cons, List.cons_append]
    exact (h.orders.cons _).trans (List.perm_append_singleton _ _).symm
  · rcases List.mem_cons.mp (hos.mem_iff.mp hx) with rfl | hx
    · rfl
    · exact h.keys x hx
  · rcases List.mem_cons.mp (hos.mem_iff.mp hx) with rfl | hx
    · show Life quantity (reportsOf (log ++ [_]) id) 0 true
      rw [reportsOf_concat_self hreport, hlog]
      exact .new _ rfl rfl rfl
    · rw [reportsOf_concat_other (by rw [hreport]; exact (hopen x hx).symm)]
      exact h.open_life x hx
  · rw [reportsOf_concat_other (by rw [hreport]; exact (hclosed o ho).symm)]
    exact h.closed_life o ho
  · rw [List.map_append, List.mem_append]
    rcases List.mem_append.mp hr with hr | hr
    · exact .inl (h.logged r hr)
    · rw [List.mem_singleton.mp hr, hreport]
      exact .inr List.mem_cons_self

/-- **A cancellation** closes the order, or finds none. -/
theorem cancel (h : Lives e.openOrders e.closed log ledger) (hl : (ledger.map Prod.fst).Nodup)
    (id : OrderId) (now : Timestamp) :
    Lives (e.cancel id now).2.openOrders (e.cancel id now).2.closed
      (log ++ (e.cancel id now).1.toList) ledger := by
  unfold PaperExecutionEngine.cancel
  cases hfind : e.openOrders.find? (·.1 = id) with
  | none =>
    rw [Option.toList_none, List.append_nil]
    exact h
  | some x =>
    obtain ⟨key, o⟩ := x
    obtain rfl : key = id := by simpa using List.find?_some hfind
    obtain ⟨pre, post, hos⟩ := List.append_of_mem (List.mem_of_find?_eq_some hfind)
    have hnodup := h.nodup_keys hl
    rw [hos] at h hnodup
    rw [List.map_append, List.map_cons, List.nodup_middle, List.nodup_cons, List.mem_append,
      not_or] at hnodup
    have hfilter : e.openOrders.filter (·.1 ≠ key) = pre ++ post := by
      have hpre : pre.filter (·.1 ≠ key) = pre := List.filter_eq_self.mpr fun y hy => by
        simpa using fun he => hnodup.1.1 (List.mem_map.mpr ⟨y, hy, he⟩)
      have hpost : post.filter (·.1 ≠ key) = post := List.filter_eq_self.mpr fun y hy => by
        simpa using fun he => hnodup.1.2 (List.mem_map.mpr ⟨y, hy, he⟩)
      rw [hos, List.filter_append, List.filter_cons_of_neg (by simp), hpre, hpost]
    dsimp only
    rw [hfilter, Option.toList_some]
    have hlife := h.open_life (key, o) (List.mem_append_right _ List.mem_cons_self)
    refine (h.perm List.perm_middle.symm).close _ hl (h.keys _ (List.mem_append_right _
      List.mem_cons_self)) rfl (.cancel hlife _ rfl rfl rfl)

end Operations

end Lives

section Log

variable {os : List (OrderId × Order)} {closed : List Order} {log : List ExecutionReport}
  {ledger : List (OrderId × Quantity)}

theorem Lives.life (h : Lives os closed log ledger) (hpos : ∀ x ∈ ledger, 0 < x.2) {o : Order}
    (ho : o ∈ os.map Prod.snd ++ closed) :
    0 < o.quantity ∧ ∃ isOpen, Life o.quantity (reportsOf log o.id) o.filledQuantity isOpen := by
  have hstub : o.stub ∈ os.map (Order.stub ∘ Prod.snd) ++ closed.map Order.stub := by
    rw [← List.map_map, ← List.map_append]
    exact List.mem_map_of_mem ho
  refine ⟨hpos _ (h.orders.mem_iff.mp hstub), ?_⟩
  rcases List.mem_append.mp ho with ho | ho
  · obtain ⟨x, hx, rfl⟩ := List.mem_map.mp ho
    exact ⟨true, h.open_life x hx⟩
  · exact ⟨false, h.closed_life o ho⟩

theorem Lives.exists_order (h : Lives os closed log ledger) {r : ExecutionReport} (hr : r ∈ log) :
    ∃ o ∈ os.map Prod.snd ++ closed, o.id = r.orderId := by
  obtain ⟨stub, hstub, hid⟩ := List.mem_map.mp (h.logged r hr)
  have hmem := h.orders.mem_iff.mpr hstub
  rw [← List.map_map, ← List.map_append] at hmem
  obtain ⟨o, ho, rfl⟩ := List.mem_map.mp hmem
  exact ⟨o, ho, hid⟩

/-- **After its last report** an order is not open and not reported. -/
theorem Lives.after_close (h : Lives os closed log ledger) (hpos : ∀ x ∈ ledger, 0 < x.2)
    {pre post : List ExecutionReport} {r : ExecutionReport} (hlog : log = pre ++ r :: post)
    (hr : r.Closes) :
    r.orderId ∉ os.map Prod.fst ∧ ∀ r' ∈ post, r'.orderId ≠ r.orderId := by
  have hsplit : reportsOf log r.orderId = reportsOf pre r.orderId ++ r :: reportsOf post r.orderId := by
    unfold reportsOf
    rw [hlog, List.filter_append, List.filter_cons_of_pos (by simp)]
  constructor
  · intro hopen
    obtain ⟨x, hx, hid⟩ := List.mem_map.mp hopen
    have hid' : x.2.id = r.orderId := (h.keys x hx).symm.trans hid
    obtain ⟨hq, -⟩ := h.life hpos (List.mem_append_left _ (List.mem_map_of_mem hx))
    have hlife := h.open_life x hx
    rw [hid'] at hlife
    exact nomatch ((hlife.split hq hsplit).2 hr).2
  · intro r' hr' hid
    obtain ⟨o, ho, ho'⟩ := h.exists_order (r := r) (by rw [hlog]; simp)
    obtain ⟨hq, isOpen, hlife⟩ := h.life hpos ho
    rw [ho'] at hlife
    have hnil := ((hlife.split hq hsplit).2 hr).1
    have hmem : r' ∈ reportsOf post r.orderId := List.mem_filter.mpr ⟨hr', decide_eq_true hid⟩
    rw [hnil] at hmem
    cases hmem

end Log

/-! ## Runs -/

/-- One operation on the engine. -/
inductive EngineOp where
  | submitLimit (id : OrderId) (symbol : Symbol) (side : Side) (price : Price)
      (quantity : Quantity) (now : Timestamp)
  | cancel (id : OrderId) (now : Timestamp)
  | onMarketEvent (ev : MarketEvent)

/-- The order that an operation submits. -/
def EngineOp.submission : EngineOp → Option (OrderId × Quantity)
  | .submitLimit id _ _ _ quantity _ => some (id, quantity)
  | _ => none

/-- The orders that operations submit. -/
def submissions (ops : List EngineOp) : List (OrderId × Quantity) := ops.filterMap EngineOp.submission

namespace PaperExecutionEngine

variable {F : Type} [Double F]

/-- The reports an operation returns and the engine after it. -/
def operate (host : Host F) (e : PaperExecutionEngine F) :
    EngineOp → List ExecutionReport × PaperExecutionEngine F
  | .submitLimit id symbol side price quantity now =>
    let (report, e) := e.submitLimit host id symbol side price quantity now
    ([report], e)
  | .cancel id now =>
    let (report, e) := e.cancel id now
    (report.toList, e)
  | .onMarketEvent ev => e.onMarketEvent host ev

/-- An operation, with all reports so far kept in order. -/
def operateLogged (host : Host F) (s : PaperExecutionEngine F × List ExecutionReport)
    (op : EngineOp) : PaperExecutionEngine F × List ExecutionReport :=
  ((s.1.operate host op).2, s.2 ++ (s.1.operate host op).1)

/-- The engine after operations on a fresh one, and the reports it has returned. -/
def afterOps (host : Host F) (assumptions : FillAssumptions F) (ops : List EngineOp) :
    PaperExecutionEngine F × List ExecutionReport :=
  run (operateLogged host) ({ assumptions }, []) ops

/-- Every order, in its last state. -/
def allOrders (e : PaperExecutionEngine F) : List Order := e.openOrders.map Prod.snd ++ e.closed

variable (host : Host F) (assumptions : FillAssumptions F)

/-- **Run lemma.** -/
theorem afterOps_lives (ops : List EngineOp) (hfresh : ((submissions ops).map Prod.fst).Nodup) :
    Lives (afterOps host assumptions ops).1.openOrders (afterOps host assumptions ops).1.closed
      (afterOps host assumptions ops).2 (submissions ops) := by
  induction ops using List.reverseRecOn with
  | nil =>
    refine ⟨.refl _, fun x hx => ?_, fun x hx => ?_, fun o ho => ?_, fun r hr => ?_⟩
    · cases hx
    · cases hx
    · cases ho
    · cases hr
  | append_singleton ops op ih =>
    rw [submissions, List.filterMap_append] at hfresh ⊢
    rw [List.map_append] at hfresh
    have hl := (List.nodup_append.mp hfresh).1
    have h := ih hl
    rw [afterOps, run_concat]
    cases op with
    | submitLimit id symbol side price quantity now =>
      refine h.submitLimit host (fun hid => ?_) symbol side price quantity now
      exact (List.nodup_append.mp hfresh).2.2 id hid id List.mem_cons_self rfl
    | cancel id now =>
      rw [show [EngineOp.cancel id now].filterMap EngineOp.submission = [] from rfl, List.append_nil]
      exact h.cancel hl id now
    | onMarketEvent ev =>
      rw [show [EngineOp.onMarketEvent ev].filterMap EngineOp.submission = [] from rfl,
        List.append_nil]
      exact h.onMarketEvent host ev hl

/-- **The life of an order.** Whatever operations are made, every order submitted is there; its fills
are positive and add up to its filled quantity, which stays within its quantity; each report's
remaining quantity is what the fills so far have left, and the order is filled exactly when that is
zero; after it is filled or canceled it is not open and never reported again. -/
theorem order_lifecycle (ops : List EngineOp) (hfresh : ((submissions ops).map Prod.fst).Nodup)
    (hpos : ∀ x ∈ submissions ops, 0 < x.2) :
    let e := (afterOps host assumptions ops).1
    let log := (afterOps host assumptions ops).2
    (e.allOrders.map Order.stub).Perm (submissions ops) ∧
    (∀ o ∈ e.allOrders,
      filledBy (reportsOf log o.id) = o.filledQuantity ∧ o.filledQuantity ≤ o.quantity ∧
      ∀ pre r post, reportsOf log o.id = pre ++ r :: post → r.Tells o.quantity pre) ∧
    ∀ pre r post, log = pre ++ r :: post →
      (∃ o ∈ e.allOrders, o.id = r.orderId) ∧
      (r.Closes → r.orderId ∉ e.openOrders.map Prod.fst ∧ ∀ r' ∈ post, r'.orderId ≠ r.orderId) := by
  intro e log
  have h : Lives e.openOrders e.closed log (submissions ops) :=
    afterOps_lives host assumptions ops hfresh
  refine ⟨?_, fun o ho => ?_, fun pre r post hlog => ⟨?_, h.after_close hpos hlog⟩⟩
  · unfold allOrders
    rw [List.map_append, List.map_map]
    exact h.orders
  · obtain ⟨hq, isOpen, hlife⟩ := h.life hpos ho
    obtain ⟨hsum, hle, -⟩ := hlife.sum hq
    exact ⟨hsum, hle, fun pre r post hrs => (hlife.split hq hrs).1⟩
  · exact h.exists_order (by rw [hlog]; simp)

/-- Two orders filled in part by the same trade; one is canceled before the next one. -/
def twoLives : List EngineOp :=
  [.submitLimit 1 (.ofView [65]) .buy (.fromTicks 1000000) 10 1,
    .submitLimit 2 (.ofView [65]) .buy (.fromTicks 1000000) 3 1,
    .onMarketEvent (.makeTrade 2 1 (.ofView [65]) .sell (.fromTicks 999900) 4), .cancel 1 3,
    .onMarketEvent (.makeTrade 4 2 (.ofView [65]) .sell (.fromTicks 999900) 4)]

theorem order_lifecycle_twoLives :
    ((afterOps (lowHost ℚ) {} twoLives).1.allOrders.map Order.stub).Perm [(1, 10), (2, 3)] ∧
      ∀ o ∈ (afterOps (lowHost ℚ) {} twoLives).1.allOrders, o.filledQuantity ≤ o.quantity := by
  obtain ⟨hperm, horders, -⟩ := order_lifecycle (lowHost ℚ) {} twoLives (by decide) (by decide)
  exact ⟨hperm, fun o ho => (horders o ho).2.1⟩

end PaperExecutionEngine

end Lob
