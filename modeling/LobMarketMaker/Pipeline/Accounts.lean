import LobMarketMaker.Pipeline.Limits

/-!
# No order and no share is lost or counted twice

* `orders`: every order ever submitted, in its last state;
* `Tracks.orders_perm`: they are the orders of the desk, whose balances
  (`Desk.Balanced`, `Desk.VolumeBalance`, `Desk.PositionBalance`) carry over;
* **`accounts_balance`**; beyond `2 ^ 53` shares doubles round and the position drifts from the
  orders, and from `2 ^ 63` shares on the volume wraps around (`accounts_balance_fails`).
-/

set_option autoImplicit false

namespace Lob

open Foundation

theorem Desk.map_snd_entries (d : Desk) : d.entries.map Prod.snd = d.openOrders := by
  unfold entries openOrders sideEntries
  rw [List.map_append, List.map_map, List.map_map]
  rfl

theorem Desk.filledOn_perm {l l' : List Order} (h : l.Perm l') (side : Side) :
    filledOn side l = filledOn side l' := ((h.filter _).map _).sum_eq

namespace Pipeline

variable {F : Type} [Double F]

/-- Every order ever submitted, in its last state. -/
def orders (p : Pipeline F) : List Order := p.exec.closed ++ p.exec.openOrders.map Prod.snd

variable {limits : RiskLimits F} {cfg : StrategyConfig F} {p : Pipeline F} {d : Desk}

theorem Tracks.orders_perm (h : Tracks limits cfg p p.exec d) : p.orders.Perm d.orders := by
  unfold orders Desk.orders
  rw [h.counts.closed, ← d.map_snd_entries]
  exact (h.shows.entries.map _).append_left _

/-- The counters of the pipeline and of the engine. -/
structure CountersAgree (p : Pipeline F) : Prop where
  submitted : p.stats.quotesSubmitted = p.exec.totalSubmitted
  canceled : p.stats.quotesCanceled = p.exec.totalCanceled
  fills : p.stats.fills = p.exec.totalFilled
  partialFills : p.stats.partialFills = p.exec.totalPartialFills

theorem Tracks.countersAgree (h : Tracks limits cfg p p.exec d) : p.CountersAgree where
  submitted := h.counts.submitted.trans h.counts.totalSubmitted.symm
  canceled := h.counts.canceled.trans h.counts.totalCanceled.symm
  fills := h.counts.fills.trans h.counts.totalFilled.symm
  partialFills := h.counts.partialFills.trans h.counts.totalPartialFills.symm

/-- Each order is open, canceled or filled up, and the volume counts each filled share, up to the
range of its counter. -/
structure OrdersBalance (p : Pipeline F) : Prop where
  orders : p.orders.length = p.stats.quotesSubmitted
  partial_le : p.stats.partialFills ≤ p.stats.fills
  submitted : p.stats.quotesSubmitted = p.exec.openOrderCount + p.stats.quotesCanceled +
    (p.stats.fills - p.stats.partialFills)
  volume : InI64 (p.orders.map Order.filledQuantity).sum →
    p.portfolio.state.totalVolumeTraded = (p.orders.map Order.filledQuantity).sum

theorem Tracks.totalVolume (h : Tracks limits cfg p p.exec d) (hv : d.VolumeBalance) :
    p.portfolio.state.totalVolumeTraded = wrapI64 (p.orders.map Order.filledQuantity).sum := by
  rw [h.counts.volume, hv, (h.orders_perm.map _).sum_eq, Desk.shares_one]

theorem Tracks.ordersBalance (h : Tracks limits cfg p p.exec d) (hb : d.Balanced)
    (hv : d.VolumeBalance) : p.OrdersBalance := by
  have hperm := h.orders_perm
  have hopen : p.exec.openOrderCount = d.openOrders.length := by
    rw [PaperExecutionEngine.openOrderCount, h.shows.entries.length_eq, ← d.map_snd_entries,
      List.length_map]
  obtain ⟨h₁, h₂, h₃⟩ := hb
  have hc := h.counts
  refine ⟨?_, ?_, ?_, ?_⟩
  · rw [hperm.length_eq, hc.submitted, h₁, Desk.orders, List.length_append, Nat.add_comm]
  · rw [hc.partialFills, hc.fills]
    exact h₃
  · rw [hopen, hc.submitted, hc.canceled, hc.fills, hc.partialFills]
    omega
  · rw [h.totalVolume hv]
    exact wrapI64_of_inI64

/-- The position is what the buy orders filled less what the sell orders did. -/
def SharesBalance (p : Pipeline F) : Prop :=
  p.portfolio.state.position = Desk.filledOn .buy p.orders - Desk.filledOn .sell p.orders

theorem Tracks.sharesBalance (h : Tracks limits cfg p p.exec d) (hp : d.PositionBalance) :
    p.SharesBalance := by
  unfold SharesBalance
  rw [h.counts.position, hp, Desk.shares_sideSign, Desk.filledOn_perm h.orders_perm,
    Desk.filledOn_perm h.orders_perm]

variable {B : ℤ}

/-- **Nothing is lost.** The counters agree and orders and volume balance in every reachable state;
so do the shares, for limits up to which the arithmetic of the check and of the fills is exact. -/
theorem accounts_balance [ExactUpTo F B] (hB : 0 ≤ B) (host : Host F) (symbol : Symbol)
    (cfg : PipelineConfig F) (calls : List Call) :
    let p := after host symbol cfg calls
    p.CountersAgree ∧ p.OrdersBalance ∧ (Exact B cfg.riskLimits → p.SharesBalance) := by
  intro p
  obtain ⟨d, ht, hb, hv⟩ := after_tracks host symbol cfg calls
    (I := fun d => d.Balanced ∧ d.VolumeBalance)
    (fun _ _ hstep hd => ⟨hstep.balanced hd.1, hstep.volumeBalance hd.2⟩)
    ⟨⟨rfl, rfl, le_refl _⟩, rfl⟩
  refine ⟨ht.countersAgree, ht.ordersBalance hb hv, fun hexact => ?_⟩
  obtain ⟨d', ht', -, hp⟩ := after_within host symbol cfg calls (le_max_left 0 _)
    (max_le hB hexact.position) fun p s q hp ha => by
      have hL := max_eq_right ha.maxPosition_nonneg
      rw [hL] at hp ⊢
      exact ha.within hp hexact
  exact ht'.sharesBalance hp

theorem accounts_balance_default :
    let p := after (lowHost Float.Model) acme {} hugeCalls
    p.CountersAgree ∧ p.OrdersBalance ∧ p.SharesBalance := by
  obtain ⟨hcounters, horders, hshares⟩ :=
    accounts_balance (B := 2 ^ 53) (by decide) (lowHost Float.Model) acme {} hugeCalls
  exact ⟨hcounters, horders, hshares (exact_binary64 (by decide) (by decide) (.inl (by decide)))⟩

/-- Orders of `2 ^ 62` shares. -/
def vastConfig : PipelineConfig Float.Model where
  riskLimits := { maxPosition := 2 ^ 62, maxOrderSize := 2 ^ 62, maxNotional := ofInt (10 ^ 40) }
  strategy := { quoteSize := 2 ^ 62 }
  fillAssumptions := { partialFillProbability := ofInt 0 }

/-- A two-sided book, then trades that fill the bid and the ask. -/
def vastCalls : List Call :=
  [.process (.makeQuote 1 1 acme .buy (.fromTicks 999900) 100),
   .process (.makeQuote 2 2 acme .sell (.fromTicks 1000100) 100),
   .process (.makeTrade 3 3 acme .sell (.fromTicks 999000) (2 ^ 62)),
   .process (.makeTrade 4 4 acme .buy (.fromTicks 1001000) (2 ^ 62))]

/-- **Without the bounds shares can be counted twice**, and the volume can leave its counter. -/
theorem accounts_balance_fails :
    (¬ ∀ (host : Host Float.Model) (symbol : Symbol) (cfg : PipelineConfig Float.Model)
      (calls : List Call), (after host symbol cfg calls).CountersAgree ∧
        (after host symbol cfg calls).OrdersBalance ∧
        (after host symbol cfg calls).SharesBalance) ∧
    ¬ ∀ (host : Host Float.Model) (symbol : Symbol) (cfg : PipelineConfig Float.Model)
      (calls : List Call), (after host symbol cfg calls).portfolio.state.totalVolumeTraded =
        ((after host symbol cfg calls).orders.map Order.filledQuantity).sum := by
  constructor
  · intro h
    have hrun : (after (lowHost Float.Model) acme hugeConfig hugeCalls).portfolio.state.position ≠
        Desk.filledOn .buy (after (lowHost Float.Model) acme hugeConfig hugeCalls).orders -
          Desk.filledOn .sell (after (lowHost Float.Model) acme hugeConfig hugeCalls).orders := by
      decide +kernel
    exact hrun (h (lowHost Float.Model) acme hugeConfig hugeCalls).2.2
  · intro h
    have hrun : (after (lowHost Float.Model) acme vastConfig
          vastCalls).portfolio.state.totalVolumeTraded ≠
        ((after (lowHost Float.Model) acme vastConfig vastCalls).orders.map
          Order.filledQuantity).sum := by decide +kernel
    exact hrun (h (lowHost Float.Model) acme vastConfig vastCalls)

end Pipeline

end Lob
