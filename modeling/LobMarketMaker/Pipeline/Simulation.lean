import LobMarketMaker.Pipeline.Desk
import LobMarketMaker.Pipeline.Stages

/-!
# The pipeline simulates the desk

`Tracks limits cfg p e d`: the slots and counters of the pipeline `p` and the open orders and
counters of the engine `e` show the same desk `d`. The engine is a parameter of its own since in a
trade it runs ahead of the pipeline, which sees the fills one report at a time.

* `Tracks.cancelSide`, `Tracks.submit`, `Tracks.fills`: what the operations do to the desk;
* **`simulation`**: every call is matched by steps of the desk.
-/

set_option autoImplicit false

namespace Lob

open Foundation Relation

/-! ## The open orders of a desk -/

/-- The entry of an order in the engine's map. -/
def LiveOrder.entry {s : BookSide} (o : LiveOrder s) : OrderId × Order := (o.id, o.toOrder)

/-- What the slot holds of an order. -/
def LiveOrder.slot {s : BookSide} (o : LiveOrder s) : RestingQuote := ⟨o.id, o.price, o.quantity⟩

namespace Desk

/-- The order of one side as entries of the engine's map. -/
def sideEntries (d : Desk) (s : BookSide) : List (OrderId × Order) :=
  (d.resting s).toList.map LiveOrder.entry

/-- The orders of both sides, bid first. -/
def entries (d : Desk) : List (OrderId × Order) := d.sideEntries .bid ++ d.sideEntries .ask

theorem entries_perm (d : Desk) (s : BookSide) :
    d.entries.Perm (d.sideEntries s ++ d.sideEntries s.other) := by
  cases s
  · exact .refl _
  · exact List.perm_append_comm

theorem sideEntries_of_some {d : Desk} {s : BookSide} {o : LiveOrder s}
    (h : d.resting s = some o) : d.sideEntries s = [o.entry] := by
  rw [sideEntries, h]
  rfl

theorem sideEntries_of_none {d : Desk} {s : BookSide} (h : d.resting s = none) :
    d.sideEntries s = [] := by
  rw [sideEntries, h]
  rfl

theorem mem_sideEntries {d : Desk} {s : BookSide} {x : OrderId × Order} :
    x ∈ d.sideEntries s ↔ ∃ o, d.resting s = some o ∧ x = o.entry := by
  unfold sideEntries
  cases d.resting s with
  | none => simp
  | some o => simp

theorem mem_entries {d : Desk} {x : OrderId × Order} :
    x ∈ d.entries ↔ ∃ s o, d.resting s = some o ∧ x = LiveOrder.entry (s := s) o := by
  rw [entries, List.mem_append, mem_sideEntries, mem_sideEntries]
  constructor
  · rintro (⟨o, h⟩ | ⟨o, h⟩)
    · exact ⟨.bid, o, h⟩
    · exact ⟨.ask, o, h⟩
  · rintro ⟨s, o, h⟩
    cases s
    · exact .inl ⟨o, h⟩
    · exact .inr ⟨o, h⟩

theorem entries_put (d : Desk) (s : BookSide) (o : Option (LiveOrder s)) :
    (d.put s o).entries.Perm (o.toList.map LiveOrder.entry ++ d.sideEntries s.other) := by
  refine (entries_perm _ s).trans ?_
  rw [sideEntries, sideEntries, put_resting_self, put_resting_other]
  exact .refl _

end Desk

/-! ## The relation -/

namespace Pipeline

variable {F : Type} [Double F]

/-- The orders that risk and strategy let through in a position. -/
def Allow (limits : RiskLimits F) (cfg : StrategyConfig F) (position : ℤ) (s : BookSide)
    (size : ℤ) : Prop :=
  cfg.taperedSize position s = size ∧
    ∃ inp : RiskCheckInput F, limits.Passes inp ∧ inp.orderQuantity = size ∧
      inp.orderSide = s.side ∧ inp.currentPosition = position

variable (F) in
/-- How the portfolio moves the position. -/
def move (position : ℤ) (s : BookSide) (q : ℤ) : ℤ := Portfolio.movePosition F position s.side q

/-- The slots of the pipeline and the entries `os` are the orders of the desk, with distinct
identifiers given out before. -/
structure Shows (p : Pipeline F) (os : List (OrderId × Order)) (d : Desk) : Prop where
  entries : os.Perm d.entries
  slots : ∀ s, p.resting s = (d.resting s).map LiveOrder.slot
  ids_lt : ∀ s o, d.resting s = some o → o.id < p.nextOrderId
  ids_ne : ∀ s o o', d.resting s = some o → d.resting s.other = some o' → o.id ≠ o'.id
  symbols : ∀ s o, d.resting s = some o → o.symbol = p.book.symbol

/-- The counters of the pipeline and of the engine are those of the desk; the volume is kept in
`int64_t`. -/
structure Counts (p : Pipeline F) (e : PaperExecutionEngine F) (d : Desk) : Prop where
  position : p.portfolio.state.position = d.position
  volume : p.portfolio.state.totalVolumeTraded = wrapI64 d.volume
  closed : e.closed = d.closed
  submitted : p.stats.quotesSubmitted = d.submitted
  totalSubmitted : e.totalSubmitted = d.submitted
  canceled : p.stats.quotesCanceled = d.canceled
  totalCanceled : e.totalCanceled = d.canceled
  fills : p.stats.fills = d.fills
  totalFilled : e.totalFilled = d.fills
  partialFills : p.stats.partialFills = d.partialFills
  totalPartialFills : e.totalPartialFills = d.partialFills

/-- The pipeline shows the desk `d`, under settings that stay what they were. -/
structure Tracks (limits : RiskLimits F) (cfg : StrategyConfig F) (p : Pipeline F)
    (e : PaperExecutionEngine F) (d : Desk) : Prop where
  risk : p.risk = limits
  strategy : p.strategy = cfg
  shows : Shows p e.openOrders d
  counts : Counts p e d

/-- The steps of the desk under these limits and this strategy. -/
abbrev DeskStep (limits : RiskLimits F) (cfg : StrategyConfig F) : Desk → Desk → Prop :=
  Desk.Step (move F) (Allow limits cfg)

/-- The pipeline and its engine show a desk that `d` leads to. -/
def Reaches (limits : RiskLimits F) (cfg : StrategyConfig F) (d : Desk) (p : Pipeline F) : Prop :=
  ∃ d', ReflTransGen (DeskStep limits cfg) d d' ∧ Tracks limits cfg p p.exec d'

variable {limits : RiskLimits F} {cfg : StrategyConfig F} {p p' : Pipeline F}
  {e e' : PaperExecutionEngine F} {d d' : Desk} {os os' : List (OrderId × Order)} {s : BookSide}

/-! ## One side changes -/

/-- What a change of side `s` to the order `o` has to establish. -/
theorem Shows.put {o : Option (LiveOrder s)} (h : Shows p os d)
    (hos : os'.Perm (o.toList.map LiveOrder.entry ++ d.sideEntries s.other))
    (hself : p'.resting s = o.map LiveOrder.slot)
    (hother : p'.resting s.other = p.resting s.other) (hbook : p'.book.symbol = p.book.symbol)
    (hnext : p.nextOrderId ≤ p'.nextOrderId)
    (ho : ∀ o' ∈ o, o'.id < p'.nextOrderId ∧ o'.symbol = p.book.symbol ∧
      ∀ x, d.resting s.other = some x → o'.id ≠ x.id) : Shows p' os' (d.put s o) where
  entries := hos.trans (d.entries_put s o).symm
  slots := by
    refine Desk.forall_sides s ?_ ?_
    · rw [Desk.put_resting_self, hself]
    · rw [Desk.put_resting_other, hother, h.slots]
  ids_lt := by
    refine Desk.forall_sides s ?_ ?_
    · intro x hx
      rw [Desk.put_resting_self] at hx
      exact (ho x hx).1
    · intro x hx
      rw [Desk.put_resting_other] at hx
      exact (h.ids_lt _ x hx).trans_le hnext
  ids_ne := by
    refine Desk.forall_sides s ?_ ?_
    · intro x y hx hy
      rw [Desk.put_resting_self] at hx
      rw [Desk.put_resting_other] at hy
      exact (ho x hx).2.2 y hy
    · rw [BookSide.other_other]
      intro x y hx hy
      rw [Desk.put_resting_self] at hy
      rw [Desk.put_resting_other] at hx
      exact ((ho y hy).2.2 x hx).symm
  symbols := by
    rw [hbook]
    refine Desk.forall_sides s ?_ ?_
    · intro x hx
      rw [Desk.put_resting_self] at hx
      exact (ho x hx).2.1
    · intro x hx
      rw [Desk.put_resting_other] at hx
      exact h.symbols _ x hx

/-- Side `s` is emptied; the rest of the pipeline may have moved on in what no desk sees. -/
theorem Shows.withdrawn {q : Pipeline F} (h : Shows p os d) (hos : os'.Perm (d.sideEntries s.other))
    (hother : q.resting s.other = p.resting s.other) (hbook : q.book.symbol = p.book.symbol)
    (hnext : p.nextOrderId ≤ q.nextOrderId) : Shows (q.setResting s none) os' (d.put s none) := by
  refine h.put (o := none) hos (resting_setResting_self _ _ _) ?_ ?_ ?_ ?_
  · rw [resting_setResting_other, hother]
  · rw [setResting_book, hbook]
  · rw [setResting_nextOrderId]
    exact hnext
  · exact fun _ ho => absurd ho (Option.not_mem_none _)

theorem Shows.congr (h : Shows p os d) (hd : d'.resting = d.resting) : Shows p os d' := by
  have he : d'.entries = d.entries := by
    rw [Desk.entries, Desk.entries, Desk.sideEntries, Desk.sideEntries, hd]
    rfl
  exact
    { entries := by rw [he]; exact h.entries
      slots := by rw [hd]; exact h.slots
      ids_lt := by rw [hd]; exact h.ids_lt
      ids_ne := by rw [hd]; exact h.ids_ne
      symbols := by rw [hd]; exact h.symbols }

theorem Counts.setResting (h : Counts p e d) (s : BookSide) (q : Option RestingQuote) :
    Counts (p.setResting s q) e d := by
  cases s <;> exact { h with }

theorem Shows.entries_of_some {o : LiveOrder s} (h : Shows p os d) (hs : d.resting s = some o) :
    os.Perm (o.entry :: d.sideEntries s.other) := by
  have hp := h.entries.trans (d.entries_perm s)
  rwa [Desk.sideEntries_of_some hs] at hp

theorem Shows.entries_of_none (h : Shows p os d) (hs : d.resting s = none) :
    os.Perm (d.sideEntries s.other) := by
  have hp := h.entries.trans (d.entries_perm s)
  rwa [Desk.sideEntries_of_none hs] at hp

theorem Shows.key_ne {o : LiveOrder s} (h : Shows p os d) (hs : d.resting s = some o)
    {x : OrderId × Order} (hx : x ∈ d.sideEntries s.other) : x.1 ≠ o.id := by
  obtain ⟨o', ho', rfl⟩ := Desk.mem_sideEntries.mp hx
  exact (h.ids_ne s o o' hs ho').symm

theorem Shows.key_lt (h : Shows p os d) {x : OrderId × Order} (hx : x ∈ os) :
    x.1 < p.nextOrderId := by
  obtain ⟨s, o, ho, rfl⟩ := Desk.mem_entries.mp (h.entries.mem_iff.mp hx)
  exact h.ids_lt s o ho

theorem Shows.nodup_keys (h : Shows p os d) : (os.map Prod.fst).Nodup := by
  rw [(h.entries.map Prod.fst).nodup_iff, Desk.entries, List.map_append, List.nodup_append]
  have hside : ∀ s, ((d.sideEntries s).map Prod.fst).Nodup := by
    intro s
    unfold Desk.sideEntries
    cases d.resting s with
    | none => exact List.nodup_nil
    | some o => exact List.nodup_singleton _
  refine ⟨hside _, hside _, ?_⟩
  rintro k hk _ hl rfl
  obtain ⟨x, hx, hkx⟩ := List.mem_map.mp hk
  obtain ⟨y, hy, hky⟩ := List.mem_map.mp hl
  obtain ⟨o, ho, rfl⟩ := Desk.mem_sideEntries.mp hx
  exact h.key_ne ho hy (hky.trans hkx.symm)

/-! ## Canceling -/

theorem Shows.find {o : LiveOrder s} (h : Shows p e.openOrders d) (hs : d.resting s = some o) :
    e.openOrders.find? (·.1 = o.id) = some o.entry := by
  have hp := h.entries_of_some hs
  have hmem : o.entry ∈ e.openOrders := hp.mem_iff.mpr List.mem_cons_self
  cases hf : e.openOrders.find? (·.1 = o.id) with
  | none =>
    have := List.find?_eq_none.mp hf o.entry hmem
    simp [LiveOrder.entry] at this
  | some x =>
    have hx := hp.mem_iff.mp (List.mem_of_find?_eq_some hf)
    have hkey : x.1 = o.id := by simpa using List.find?_some hf
    rcases List.mem_cons.mp hx with rfl | hx
    · rfl
    · exact absurd hkey (h.key_ne hs hx)

theorem Shows.erase {o : LiveOrder s} (h : Shows p os d) (hs : d.resting s = some o) :
    (os.filter (·.1 ≠ o.id)).Perm (d.sideEntries s.other) := by
  refine ((h.entries_of_some hs).filter _).trans ?_
  rw [List.filter_cons_of_neg (by simp [LiveOrder.entry]), List.filter_eq_self.mpr]
  intro x hx
  simpa using h.key_ne hs hx

theorem Tracks.cancelSide (h : Tracks limits cfg p p.exec d) (s : BookSide) (now : Timestamp) :
    Reaches limits cfg d (p.cancelSide s now) ∧ (p.cancelSide s now).resting s = none := by
  have hslot := h.shows.slots s
  cases hs : d.resting s with
  | none =>
    rw [hs, Option.map_none] at hslot
    have hc : p.cancelSide s now = p := by
      unfold Pipeline.cancelSide
      rw [hslot]
    rw [hc]
    exact ⟨⟨d, .refl, h⟩, hslot⟩
  | some o =>
    rw [hs, Option.map_some] at hslot
    have hexec : (p.exec.cancel o.id now).2 =
        { p.exec with
          openOrders := p.exec.openOrders.filter (·.1 ≠ o.id)
          totalCanceled := p.exec.totalCanceled + 1
          closed := p.exec.closed ++ [o.toOrder] } := by
      unfold PaperExecutionEngine.cancel
      rw [h.shows.find hs]
      rfl
    have hc : p.cancelSide s now =
        { p with
          exec := (p.exec.cancel o.id now).2
          stats := { p.stats with quotesCanceled := p.stats.quotesCanceled + 1 } }.setResting s
            none := by
      unfold Pipeline.cancelSide
      rw [hslot]
      rfl
    rw [hc, hexec]
    refine ⟨⟨d.cancel s o, .single (.cancel d s o hs), ?_⟩, resting_setResting_self _ _ _⟩
    refine ⟨?_, ?_, ?_, ?_⟩
    · rw [setResting_risk]
      exact h.risk
    · rw [setResting_strategy]
      exact h.strategy
    · rw [setResting_exec]
      refine Shows.congr (d := d.put s none) ?_ rfl
      exact h.shows.withdrawn (h.shows.erase hs) (by cases s <;> rfl) rfl le_rfl
    · rw [setResting_exec]
      refine Counts.setResting ?_ s none
      exact
        { h.counts with
          closed := congrArg (· ++ [o.toOrder]) h.counts.closed
          canceled := congrArg (· + 1) h.counts.canceled
          totalCanceled := congrArg (· + 1) h.counts.totalCanceled }

/-! ## Submitting -/

/-- The live order of an approved submission. -/
def submitted (s : BookSide) (id : OrderId) (symbol : Symbol) (price : Price) (size : Quantity)
    (now : Timestamp) (h : 0 < size) : LiveOrder s where
  toOrder := PaperExecutionEngine.newLimit id symbol s.side price size now
  side_eq := rfl
  limit := rfl
  filled_nonneg := le_refl _
  open_pos := by
    show 0 < size - 0
    rwa [sub_zero]

theorem Tracks.submit (h : Tracks limits cfg p p.exec d) (hs : p.resting s = none)
    {size : Quantity} (hsize : cfg.taperedSize p.portfolio.state.position s = size)
    (host : Host F) (price : Price) (ref : F) (now : Timestamp) :
    Reaches limits cfg d (p.submit host s price size ref now) := by
  have hslot := h.shows.slots s
  rw [hs, eq_comm, Option.map_eq_none_iff] at hslot
  unfold Pipeline.submit
  dsimp only
  split_ifs with hdec
  · refine ⟨d, .refl, ?_⟩
    exact { h with shows := { h.shows with }, counts := { h.counts with } }
  · have hpass := (RiskLimits.check_approved_iff _ _).mp (not_not.mp hdec)
    rw [h.risk] at hpass
    have hpos : 0 < size := hpass.positive
    obtain ⟨os, hos, hexec⟩ := PaperExecutionEngine.submitLimit_fresh host
      (fun x hx => ne_of_lt (h.shows.key_lt hx)) p.book.symbol s.side price size now
    rw [hexec]
    let o := submitted s p.nextOrderId p.book.symbol price size now hpos
    have hallow : Allow limits cfg d.position s o.quantity :=
      ⟨h.counts.position ▸ hsize, _, hpass, rfl, rfl, h.counts.position⟩
    refine ⟨d.place s o, .single (.place d s o hslot rfl hallow), ?_, ?_, ?_, ?_⟩
    · rw [setResting_risk]
      exact h.risk
    · rw [setResting_strategy]
      exact h.strategy
    · rw [setResting_exec]
      have hos' := hos.trans ((h.shows.entries_of_none hslot).cons _)
      refine Shows.congr (d := d.put s (some o)) ?_ rfl
      refine h.shows.put (o := some o) hos' (resting_setResting_self _ _ _) ?_ ?_ ?_ ?_
      · rw [resting_setResting_other]
        cases s <;> rfl
      · rw [setResting_book]
      · rw [setResting_nextOrderId]
        exact Nat.le_succ _
      · rintro _ ⟨⟩
        rw [setResting_nextOrderId]
        exact ⟨Nat.lt_succ_self _, rfl, fun x hx => (ne_of_lt (h.shows.ids_lt _ x hx)).symm⟩
    · rw [setResting_exec]
      refine Counts.setResting ?_ s _
      exact
        { h.counts with
          submitted := congrArg (· + 1) h.counts.submitted
          totalSubmitted := congrArg (· + 1) h.counts.totalSubmitted }

/-! ## Fills -/

theorem applyReport_part {r : ExecutionReport} (hq : 0 < r.fillQuantity)
    (hr : r.status = .partiallyFilled) : p.applyReport r =
      { p with
        portfolio := p.portfolio.onFill r.side r.fillPrice r.fillQuantity
        stats :=
          { p.stats with
            fills := p.stats.fills + 1, partialFills := p.stats.partialFills + 1 } } := by
  unfold applyReport
  rw [if_pos hq, hr]
  rfl

theorem applyReport_full {r : ExecutionReport} (hq : 0 < r.fillQuantity)
    (hr : r.status = .filled) {quote : RestingQuote} (hs : p.resting s = some quote)
    (hid : quote.id = r.orderId) (hne : ∀ x ∈ p.resting s.other, x.id ≠ r.orderId) :
    p.applyReport r =
      { p with
        portfolio := p.portfolio.onFill r.side r.fillPrice r.fillQuantity
        stats := { p.stats with fills := p.stats.fills + 1 } }.setResting s none := by
  have hother : ¬ (p.resting s.other).any (·.id = r.orderId) = true := by
    rw [Option.any_eq_true]
    rintro ⟨x, hx, h⟩
    exact hne x hx (by simpa using h)
  have hself : (p.resting s).any (·.id = r.orderId) = true := by
    rw [hs, Option.any_some, decide_eq_true hid]
  unfold applyReport
  rw [if_pos hq, hr]
  cases s
  · dsimp only [resting, BookSide.other] at hself hother ⊢
    rw [if_pos rfl, if_pos hself, if_neg hother]
    rfl
  · dsimp only [resting, BookSide.other] at hself hother ⊢
    rw [if_pos rfl, if_neg hother, if_pos hself]
    rfl

theorem Shows.live (h : Shows p os d) {id : OrderId} {o : Order} (hmem : (id, o) ∈ os) :
    ∃ s, ∃ live : LiveOrder s, d.resting s = some live ∧ id = live.id ∧ o = live.toOrder := by
  obtain ⟨s, live, hs, hx⟩ := Desk.mem_entries.mp (h.entries.mem_iff.mp hmem)
  exact ⟨s, live, hs, (Prod.mk.inj hx).1, (Prod.mk.inj hx).2⟩

theorem Shows.rest_perm {pre rest : List (OrderId × Order)} {live : LiveOrder s}
    (h : Shows p (pre ++ live.entry :: rest) d) (hs : d.resting s = some live) :
    (pre ++ rest).Perm (d.sideEntries s.other) :=
  (List.perm_middle.symm.trans (h.entries_of_some hs)).cons_inv

theorem Shows.slot_ne {live : LiveOrder s} (h : Shows p os d) (hs : d.resting s = some live) :
    ∀ x ∈ p.resting s.other, x.id ≠ live.id := by
  intro x hx
  rw [h.slots, Option.mem_def, Option.map_eq_some_iff] at hx
  obtain ⟨o', ho', rfl⟩ := hx
  exact (h.ids_ne s live o' hs ho').symm

theorem Tracks.reportPart (h : Tracks limits cfg p e d) {pre rest : List (OrderId × Order)}
    {id : OrderId} {o : Order} (he : e.openOrders = pre ++ (id, o) :: rest) {q : Quantity}
    {now : Timestamp} (hpos : 0 < q) (hlt : q < o.remainingQuantity)
    (e₀ : PaperExecutionEngine F) (rng : ℕ) :
    ∃ d', DeskStep limits cfg d d' ∧
      Tracks limits cfg (p.applyReport (e₀.fillReport (o.fill q now) o.price q now))
        (e.afterFills rng [e₀.fillReport (o.fill q now) o.price q now]
          (pre ++ (id, o.fill q now) :: rest) []) d' := by
  have hshows := h.shows
  rw [he] at hshows
  obtain ⟨s, live, hs, rfl, rfl⟩ := hshows.live (List.mem_append_right _ List.mem_cons_self)
  have hstatus : (live.toOrder.fill q now).status = .partiallyFilled := by
    rw [Order.fill_status, if_neg (ne_of_gt hlt)]
  have hside : (live.toOrder.fill q now).side = s.side := live.side_eq
  refine ⟨d.fillPart (move F) s live q now hpos hlt, .fillPart d s live hs q now hpos hlt, ?_⟩
  rw [applyReport_part hpos hstatus]
  refine ⟨h.risk, h.strategy, ?_, ?_⟩
  · refine Shows.congr (d := d.put s (some (live.fillPart q now hpos hlt))) ?_ rfl
    refine hshows.put (o := some (live.fillPart q now hpos hlt)) ?_ ?_ ?_ rfl (Nat.le_refl _) ?_
    · exact List.perm_middle.trans ((hshows.rest_perm hs).cons _)
    · have hslot := hshows.slots s
      rw [hs] at hslot
      cases s <;> exact hslot
    · cases s <;> rfl
    · rintro _ ⟨⟩
      exact ⟨hshows.ids_lt s live hs, hshows.symbols s live hs, fun x hx =>
        hshows.ids_ne s live x hs hx⟩
  · have hc := h.counts
    have hcount : ([e₀.fillReport (live.toOrder.fill q now) live.price q now].countP
        (·.status = .partiallyFilled)) = 1 := by
      simp [PaperExecutionEngine.fillReport, hstatus]
    exact
      { hc with
        position := by
          rw [Portfolio.onFill_position, hc.position]
          show Portfolio.movePosition F d.position (live.toOrder.fill q now).side q = _
          rw [hside]
          rfl
        volume := by
          rw [Portfolio.onFill_volume, hc.volume, wrapI64_add_left]
          rfl
        closed := (List.append_nil _).trans hc.closed
        fills := congrArg (· + 1) hc.fills
        totalFilled := congrArg (· + 1) hc.totalFilled
        partialFills := congrArg (· + 1) hc.partialFills
        totalPartialFills := by
          show e.totalPartialFills + _ = d.partialFills + 1
          rw [hcount, hc.totalPartialFills] }

theorem Tracks.reportFull (h : Tracks limits cfg p e d) {pre rest : List (OrderId × Order)}
    {id : OrderId} {o : Order} (he : e.openOrders = pre ++ (id, o) :: rest) {now : Timestamp}
    (e₀ : PaperExecutionEngine F) (rng : ℕ) :
    ∃ d', DeskStep limits cfg d d' ∧
      Tracks limits cfg
        (p.applyReport (e₀.fillReport (o.fill o.remainingQuantity now) o.price
          o.remainingQuantity now))
        (e.afterFills rng [e₀.fillReport (o.fill o.remainingQuantity now) o.price
          o.remainingQuantity now] (pre ++ rest) [o.fill o.remainingQuantity now]) d' := by
  have hshows := h.shows
  rw [he] at hshows
  obtain ⟨s, live, hs, rfl, rfl⟩ := hshows.live (List.mem_append_right _ List.mem_cons_self)
  have hstatus : (live.toOrder.fill live.remaining now).status = .filled := by
    rw [Order.fill_status]
    exact if_pos rfl
  have hside : (live.toOrder.fill live.remaining now).side = s.side := live.side_eq
  have hslot := hshows.slots s
  rw [hs, Option.map_some] at hslot
  refine ⟨d.fillUp (move F) s live now, .fillUp d s live hs now, ?_⟩
  rw [live.remaining_eq, applyReport_full live.remaining_pos hstatus hslot rfl (hshows.slot_ne hs)]
  refine ⟨?_, ?_, ?_, ?_⟩
  · rw [setResting_risk]
    exact h.risk
  · rw [setResting_strategy]
    exact h.strategy
  · refine Shows.congr (d := d.put s none) ?_ rfl
    exact hshows.withdrawn (hshows.rest_perm hs) (by cases s <;> rfl) rfl le_rfl
  · have hc := h.counts
    have hcount : ([e₀.fillReport (live.toOrder.fill live.remaining now) live.price
        live.remaining now].countP (·.status = .partiallyFilled)) = 0 := by
      simp [PaperExecutionEngine.fillReport, hstatus]
    refine Counts.setResting ?_ s none
    exact
      { hc with
        position := by
          rw [Portfolio.onFill_position, hc.position]
          show Portfolio.movePosition F d.position (live.toOrder.fill live.remaining now).side
            live.remaining = _
          rw [hside]
          rfl
        volume := by
          rw [Portfolio.onFill_volume, hc.volume, wrapI64_add_left]
          rfl
        closed := congrArg (· ++ [live.toOrder.fill live.remaining now]) hc.closed
        fills := congrArg (· + 1) hc.fills
        totalFilled := congrArg (· + 1) hc.totalFilled
        totalPartialFills := by
          show e.totalPartialFills + _ = d.partialFills
          rw [hcount, hc.totalPartialFills, Nat.add_zero] }

/-- **A trade** and its reports are fills of the desk. -/
theorem Tracks.trade {e₀ : PaperExecutionEngine F} {ev : MarketEvent}
    {gone : List Order} {rs : List ExecutionReport} (hf : e₀.Fills ev os rs os' gone) (rng : ℕ)
    (h : Tracks limits cfg p e d) (pre : List (OrderId × Order)) (he : e.openOrders = pre ++ os) :
    ∃ d', ReflTransGen (DeskStep limits cfg) d d' ∧
      Tracks limits cfg (rs.foldl applyReport p) (e.afterFills rng rs (pre ++ os') gone) d' := by
  induction hf generalizing p e d pre with
  | nil =>
    refine ⟨d, .refl, ?_⟩
    rw [← he, PaperExecutionEngine.afterFills_nil]
    exact { h with counts := { h.counts with } }
  | skip x hf ih =>
    obtain ⟨d', hd', ht⟩ := ih h (pre ++ [x]) (by rw [he, List.append_assoc]; rfl)
    rw [List.append_assoc] at ht
    exact ⟨d', hd', ht⟩
  | part id o q hit hpos hlt hev hf ih =>
    obtain ⟨d₁, hd₁, ht₁⟩ := h.reportPart he hpos hlt e₀ rng
    obtain ⟨d', hd', ht⟩ := ih ht₁ (pre ++ [(id, o.fill q ev.timestamp)])
      (by rw [List.append_assoc]; rfl)
    rw [List.append_assoc, PaperExecutionEngine.afterFills_append] at ht
    exact ⟨d', .head hd₁ hd', ht⟩
  | full id o hit hpos hev hf ih =>
    obtain ⟨d₁, hd₁, ht₁⟩ := h.reportFull he e₀ rng
    obtain ⟨d', hd', ht⟩ := ih ht₁ pre rfl
    rw [PaperExecutionEngine.afterFills_append] at ht
    exact ⟨d', .head hd₁ hd', ht⟩

/-! ## The stages -/

theorem Reaches.trans (h : Reaches limits cfg d p) (h' : ∀ d', Tracks limits cfg p p.exec d' →
    Reaches limits cfg d' p') : Reaches limits cfg d p' := by
  obtain ⟨d₁, hd₁, ht⟩ := h
  obtain ⟨d₂, hd₂, ht'⟩ := h' d₁ ht
  exact ⟨d₂, hd₁.trans hd₂, ht'⟩

theorem Tracks.reaches (h : Tracks limits cfg p p.exec d) : Reaches limits cfg d p :=
  ⟨d, .refl, h⟩

/-- The pipelines agree on all that the desk shows. -/
structure SameOrders (p p' : Pipeline F) : Prop where
  risk : p'.risk = p.risk
  strategy : p'.strategy = p.strategy
  resting : ∀ s, p'.resting s = p.resting s
  nextOrderId : p'.nextOrderId = p.nextOrderId
  symbol : p'.book.symbol = p.book.symbol
  position : p'.portfolio.state.position = p.portfolio.state.position
  volume : p'.portfolio.state.totalVolumeTraded = p.portfolio.state.totalVolumeTraded
  submitted : p'.stats.quotesSubmitted = p.stats.quotesSubmitted
  canceled : p'.stats.quotesCanceled = p.stats.quotesCanceled
  fills : p'.stats.fills = p.stats.fills
  partialFills : p'.stats.partialFills = p.stats.partialFills

theorem Tracks.congr (h : Tracks limits cfg p e d) (hp : SameOrders p p') :
    Tracks limits cfg p' e d where
  risk := hp.risk.trans h.risk
  strategy := hp.strategy.trans h.strategy
  shows :=
    { entries := h.shows.entries
      slots := fun s => (hp.resting s).trans (h.shows.slots s)
      ids_lt := by rw [hp.nextOrderId]; exact h.shows.ids_lt
      ids_ne := h.shows.ids_ne
      symbols := by rw [hp.symbol]; exact h.shows.symbols }
  counts :=
    { h.counts with
      position := hp.position.trans h.counts.position
      volume := hp.volume.trans h.counts.volume
      submitted := hp.submitted.trans h.counts.submitted
      canceled := hp.canceled.trans h.counts.canceled
      fills := hp.fills.trans h.counts.fills
      partialFills := hp.partialFills.trans h.counts.partialFills }

theorem blind_reaches : Blind (Reaches limits cfg d) := by
  refine blind_of ?_ ?_
  · rintro p ⟨d', hd', ht⟩
    exact ⟨d', hd', ht.congr ⟨rfl, rfl, fun s => by cases s <;> rfl, rfl, rfl, rfl, rfl, rfl, rfl,
      rfl, rfl⟩⟩
  · rintro p ⟨d', hd', ht⟩
    exact ⟨d', hd', ht.congr ⟨rfl, rfl, fun s => by cases s <;> rfl, rfl, rfl, rfl, rfl, rfl, rfl,
      rfl, rfl⟩⟩

theorem Tracks.cancelRestingQuotes (h : Tracks limits cfg p p.exec d) (now : Timestamp) :
    Reaches limits cfg d (p.cancelRestingQuotes now) :=
  (h.cancelSide .bid now).1.trans fun _ h' => (h'.cancelSide .ask now).1

theorem Tracks.resync (h : Tracks limits cfg p p.exec d) (now : Timestamp) :
    Reaches limits cfg d (p.resync now) := by
  refine (h.cancelRestingQuotes now).trans fun _ h' => Tracks.reaches ?_
  exact h'.congr ⟨rfl, rfl, fun s => by cases s <;> rfl, rfl, rfl, rfl, rfl, rfl, rfl, rfl, rfl⟩

theorem Tracks.intake (h : Tracks limits cfg p p.exec d) (ev : MarketEvent) :
    Reaches limits cfg d (p.intake ev) := by
  have ht : Tracks limits cfg (p.track ev) (p.track ev).exec d :=
    h.congr ⟨rfl, rfl, fun s => by cases s <;> rfl, rfl, rfl, rfl, rfl, rfl, rfl, rfl, rfl⟩
  unfold Pipeline.intake
  split_ifs
  · exact ht.resync ev.timestamp
  · exact ht.reaches

theorem Tracks.observe (h : Tracks limits cfg p p.exec d) (host : Host F) (ev : MarketEvent) :
    Tracks limits cfg (p.observe host ev) (p.observe host ev).exec d :=
  h.congr ⟨rfl, rfl, fun s => by cases s <;> rfl, rfl, OrderBook.apply_symbol _ _, rfl, rfl, rfl,
    rfl, rfl, rfl⟩

theorem Tracks.takeFills (h : Tracks limits cfg p p.exec d) (host : Host F) (ev : MarketEvent) :
    Reaches limits cfg d (p.takeFills host ev) := by
  by_cases ht : ev.type = .trade
  · obtain ⟨rng, os', gone, hfills, hexec⟩ :=
      PaperExecutionEngine.onMarketEvent_fills host h.shows.nodup_keys ht
    have h' : Tracks limits cfg { p with exec := (p.exec.onMarketEvent host ev).2 } p.exec d :=
      h.congr ⟨rfl, rfl, fun s => by cases s <;> rfl, rfl, rfl, rfl, rfl, rfl, rfl, rfl, rfl⟩
    obtain ⟨d', hd', htr⟩ := h'.trade hfills rng [] rfl
    refine ⟨d', hd', ?_⟩
    have he : (p.takeFills host ev).exec = p.exec.afterFills rng
        (p.exec.onMarketEvent host ev).1 os' gone := by
      rw [← hexec]
      exact foldl_applyReport_exec _ _
    rw [he]
    exact htr
  · rw [takeFills_of_ne ht]
    exact h.reaches

theorem Tracks.mark (h : Tracks limits cfg p p.exec d) : Tracks limits cfg p.mark p.mark.exec d := by
  unfold Pipeline.mark
  cases (p.book.midPrice : Option F) with
  | none => exact h
  | some mid =>
    exact h.congr ⟨rfl, rfl, fun s => by cases s <;> rfl, rfl, rfl, rfl, rfl, rfl, rfl, rfl, rfl⟩

theorem Tracks.withdraw (h : Tracks limits cfg p p.exec d) (s : BookSide) (qd : QuoteDecision)
    (now : Timestamp) : Reaches limits cfg d (p.withdraw s qd now) := by
  unfold Pipeline.withdraw
  split_ifs
  · exact h.reaches
  · exact (h.cancelSide s now).1

theorem Tracks.replace (h : Tracks limits cfg p p.exec d) (host : Host F) (s : BookSide)
    {qd : QuoteDecision} {position : ℤ} (hp : p.portfolio.state.position = position)
    (hsize : qd.quote s = true → cfg.taperedSize position s = qd.size s)
    (ref : F) (ticks : ℤ) (now : Timestamp) :
    Reaches limits cfg d (p.replace host s qd ref ticks now) := by
  unfold Pipeline.replace
  split_ifs with hc
  · obtain ⟨hreach, hnone⟩ := h.cancelSide s now
    refine hreach.trans fun d' h' => h'.submit hnone ?_ host _ ref now
    rw [(SameMarket.cancelSide p s now).portfolio, hp]
    exact hsize ((Bool.and_eq_true_iff.mp hc).1)
  · exact h.reaches

theorem Tracks.requoteSides (h : Tracks limits cfg p p.exec d) (host : Host F) (now : Timestamp) :
    Reaches limits cfg d (p.requoteSides host now) := by
  have hsize : ∀ s, (p.decision host now).quote s = true →
      cfg.taperedSize p.portfolio.state.position s = (p.decision host now).size s := by
    intro s hs
    have := StrategyConfig.decide_size p.strategy hs
    rw [← h.strategy]
    exact this.1.symm
  refine requoteSides_rule (fun q s _ hq => ?_) (fun q s hm hq => ?_) h.reaches
  · exact hq.trans fun _ h' => h'.withdraw s _ now
  · exact hq.trans fun _ h' => h'.replace host s (by rw [hm.portfolio]) (hsize s) _ _ now

theorem Tracks.settle (h : Tracks limits cfg p p.exec d) (host : Host F) (ev : MarketEvent) :
    Reaches limits cfg d (p.settle host ev) := by
  unfold Pipeline.settle
  split_ifs
  · refine Tracks.cancelRestingQuotes ?_ ev.timestamp
    exact h.congr ⟨rfl, rfl, fun s => by cases s <;> rfl, rfl, rfl, rfl, rfl, rfl, rfl, rfl, rfl⟩
  · refine requote_rule blind_reaches blind_reaches (fun q hq => ?_) h.reaches
    exact hq.trans fun _ h' => h'.requoteSides host ev.timestamp
  · exact h.reaches

/-! ## The calls -/

theorem Tracks.process (h : Tracks limits cfg p p.exec d) (host : Host F) (ev : MarketEvent) :
    Reaches limits cfg d (p.process host ev) := by
  by_cases hd : p.outOfOrder ev = true
  · rw [process_dropped hd]
    refine Tracks.reaches ?_
    exact h.congr ⟨rfl, rfl, fun s => by cases s <;> rfl, rfl, rfl, rfl, rfl, rfl, rfl, rfl, rfl⟩
  · have hc : Tracks limits cfg p.counted p.counted.exec d :=
      h.congr ⟨rfl, rfl, fun s => by cases s <;> rfl, rfl, rfl, rfl, rfl, rfl, rfl, rfl, rfl⟩
    have hb : Blind (Reaches limits cfg d) := blind_reaches
    refine process_rule hb hb hb (by simpa using hd) (hc.intake ev) ?_ ?_ ?_
    · exact fun q hq => hq.trans fun _ h' => (h'.observe host ev).reaches
    · exact fun q hq => hq.trans fun _ h' => (h'.takeFills host ev).trans fun _ h'' =>
        h''.mark.reaches
    · exact fun q hq => hq.trans fun _ h' => h'.settle host ev

theorem Tracks.onClock (h : Tracks limits cfg p p.exec d) (now : Timestamp) :
    Reaches limits cfg d (p.onClock now) := by
  rcases onClock_cases (p := p) now with hc | ⟨ts, -, -, -, hc⟩
  · rw [hc]
    exact h.reaches
  · rw [hc]
    refine Tracks.cancelRestingQuotes ?_ now
    exact h.congr ⟨rfl, rfl, fun s => by cases s <;> rfl, rfl, rfl, rfl, rfl, rfl, rfl, rfl, rfl⟩

/-- **The pipeline simulates the desk.** -/
theorem simulation (host : Host F) (limits : RiskLimits F) (cfg : StrategyConfig F) :
    ForwardSimulation (call host) (DeskStep limits cfg) fun p d => Tracks limits cfg p p.exec d := by
  intro p c d h
  cases c with
  | process ev => exact h.process host ev
  | onClock now => exact h.onClock now

theorem tracks_new (symbol : Symbol) (cfg : PipelineConfig F) :
    Tracks cfg.riskLimits cfg.strategy (new symbol cfg) (new symbol cfg).exec {} where
  risk := rfl
  strategy := rfl
  shows :=
    { entries := .refl _
      slots := fun s => by cases s <;> rfl
      ids_lt := fun _ _ h => by cases h
      ids_ne := fun _ _ _ h => by cases h
      symbols := fun _ _ h => by cases h }
  counts := ⟨rfl, rfl, rfl, rfl, rfl, rfl, rfl, rfl, rfl, rfl, rfl⟩

/-- **Every reachable pipeline shows a reachable desk**, with what the desk's steps preserve. -/
theorem after_tracks (host : Host F) (symbol : Symbol) (cfg : PipelineConfig F)
    (calls : List Call) {I : Desk → Prop}
    (hI : ∀ d d', DeskStep cfg.riskLimits cfg.strategy d d' → I d → I d') (h0 : I {}) :
    ∃ d, Tracks cfg.riskLimits cfg.strategy (after host symbol cfg calls)
      (after host symbol cfg calls).exec d ∧ I d :=
  (simulation host cfg.riskLimits cfg.strategy).invariant hI (tracks_new symbol cfg) h0 calls

theorem exists_tracks (host : Host F) (symbol : Symbol) (cfg : PipelineConfig F)
    (calls : List Call) : ∃ d, Tracks cfg.riskLimits cfg.strategy (after host symbol cfg calls)
      (after host symbol cfg calls).exec d := by
  obtain ⟨d, ht, -⟩ := after_tracks host symbol cfg calls (I := fun _ => True)
    (fun _ _ _ _ => trivial) trivial
  exact ⟨d, ht⟩

end Pipeline

end Lob
