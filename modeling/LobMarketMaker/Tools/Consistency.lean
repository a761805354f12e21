import LobMarketMaker.OrderBook.LastWriter
import LobMarketMaker.Tools.Frames
import Mathlib.Data.List.GetD
import Mathlib.Order.Interval.Finset.Basic
import Mathlib.Data.Int.Interval

/-!
# The synthetic book is consistent

* `Shown`: a level that the generator tracks or has queued for deletion;
* `Queued`, `Consistent`: the tracked and the queued levels are apart and lie in the window of one
  reference, the tracked ones in the window of the present one;
* `Emits g ev g'`: what an event does to the levels shown; `next_emits`: every call emits such an
  event, and keeps the generator consistent;
* **`synthetic_consistent`**: the book of the events shows exactly those levels, while the reference
  leaves room for them; `synthetic_consistent_fails`.
-/

set_option autoImplicit false

namespace Lob

open Foundation OrderBook

namespace SyntheticBookGenerator

/-! ## Levels -/

section Frames

variable (g : SyntheticBookGenerator) (s : BookSide) (l : LevelSet) (px : ℤ)

@[simp] theorem levels_setLevels_self : (g.setLevels s l).levels s = l := by cases s <;> rfl

theorem levels_setLevels_ne {t : BookSide} (h : t ≠ s) :
    (g.setLevels s l).levels t = g.levels t := by
  cases s <;> cases t <;> first | rfl | exact absurd rfl h

@[simp] theorem setLevels_ref : (g.setLevels s l).ref = g.ref := by cases s <;> rfl

@[simp] theorem setLevels_tick : (g.setLevels s l).tick = g.tick := by cases s <;> rfl

@[simp] theorem setLevels_pending : (g.setLevels s l).pending = g.pending := by cases s <;> rfl

theorem withdraw_levels :
    (g.withdraw s px).levels = (g.setLevels s ((g.levels s).erase px)).levels := by
  cases s <;> rfl

@[simp] theorem withdraw_ref : (g.withdraw s px).ref = g.ref := setLevels_ref _ _ _

@[simp] theorem withdraw_tick : (g.withdraw s px).tick = g.tick := setLevels_tick _ _ _

end Frames

/-- The generator tracks the level, or has queued it for deletion. -/
def Shown (g : SyntheticBookGenerator) (s : BookSide) (px : ℤ) : Prop :=
  px ∈ (g.levels s).ticks ∨ (s.side, px) ∈ g.pending

/-- The `k`-th price of a side, in integers without a range. -/
def exactGrid (ref tick : ℤ) : BookSide → ℤ → ℤ
  | .bid, k => ref - tick * k
  | .ask, k => ref + tick * k

/-- One of the ten prices of a side around a `ref` that leaves room for them. -/
def InWindow (ref tick : ℤ) (s : BookSide) (px : ℤ) : Prop :=
  InRange ref tick ∧ ∃ k, 1 ≤ k ∧ k ≤ kLevelsPerSide ∧ px = exactGrid ref tick s k

/-- The queue holds levels that were tracked, each once, and no longer are. -/
structure Queued (g : SyntheticBookGenerator) : Prop where
  tick_pos : 1 ≤ g.tick
  anchor : ∃ ref, ∀ s px, g.Shown s px → InWindow ref g.tick s px
  disjoint : ∀ s, ∀ px ∈ (g.levels s).ticks, (s.side, px) ∉ g.pending
  nodup : g.pending.Nodup
  sides : ∀ x ∈ g.pending, ∃ s : BookSide, x.1 = s.side

/-- The tracked levels lie around the reference. -/
structure Consistent (g : SyntheticBookGenerator) : Prop extends Queued g where
  window : ∀ s, ∀ px ∈ (g.levels s).ticks, InWindow g.ref g.tick s px

variable {g g' : SyntheticBookGenerator} {s : BookSide} {px : ℤ}

/-! ## Levels are queued -/

theorem mem_withdraw {t : BookSide} {x : ℤ} : x ∈ ((g.withdraw s px).levels t).ticks ↔
    x ∈ (g.levels t).ticks ∧ ¬ (t = s ∧ x = px) := by
  rw [withdraw_levels]
  by_cases ht : t = s
  · subst ht
    rw [levels_setLevels_self, LevelSet.mem_erase]
    exact and_congr_right fun _ => not_congr (and_iff_right rfl).symm
  · rw [levels_setLevels_ne _ _ _ ht]
    exact (and_iff_left fun h => ht h.1).symm

theorem shown_withdraw (h : px ∈ (g.levels s).ticks) (t : BookSide) (x : ℤ) :
    (g.withdraw s px).Shown t x ↔ g.Shown t x := by
  have hpending : (t.side, x) ∈ (g.withdraw s px).pending ↔
      (t.side, x) ∈ g.pending ∨ (t = s ∧ x = px) := by
    show (t.side, x) ∈ g.pending ++ [(s.side, px)] ↔ _
    rw [List.mem_append, List.mem_singleton, Prod.mk.injEq, BookSide.side_inj]
  unfold Shown
  rw [mem_withdraw, hpending]
  by_cases hx : t = s ∧ x = px
  · obtain ⟨rfl, rfl⟩ := hx
    exact iff_of_true (.inr (.inr ⟨rfl, rfl⟩)) (.inl h)
  · rw [and_iff_left hx, or_iff_left hx]

theorem Queued.withdraw (hg : g.Queued) (h : px ∈ (g.levels s).ticks) : (g.withdraw s px).Queued where
  tick_pos := by
    rw [withdraw_tick]
    exact hg.tick_pos
  anchor := by
    obtain ⟨ref, href⟩ := hg.anchor
    refine ⟨ref, fun t x hx => ?_⟩
    rw [withdraw_tick]
    exact href t x ((shown_withdraw h t x).mp hx)
  disjoint t x hx := by
    obtain ⟨hmem, hne⟩ := mem_withdraw.mp hx
    show (t.side, x) ∉ g.pending ++ [(s.side, px)]
    rw [List.mem_append, List.mem_singleton, Prod.mk.injEq, BookSide.side_inj, not_or]
    exact ⟨hg.disjoint t x hmem, hne⟩
  nodup := by
    refine hg.nodup.append (List.nodup_singleton _) ?_
    rw [List.disjoint_singleton]
    exact hg.disjoint s px h
  sides x hx := by
    rcases List.mem_append.mp hx with hx | hx
    · exact hg.sides x hx
    · exact ⟨s, congrArg Prod.fst (List.mem_singleton.mp hx)⟩

/-- What queueing a list of levels of one side does. -/
structure Withdraws (s : BookSide) (pxs : List ℤ) (g g' : SyntheticBookGenerator) : Prop where
  queued : g'.Queued
  ref : g'.ref = g.ref
  tick : g'.tick = g.tick
  shown : ∀ t x, g'.Shown t x ↔ g.Shown t x
  mem : ∀ t x, x ∈ (g'.levels t).ticks ↔ x ∈ (g.levels t).ticks ∧ ¬ (t = s ∧ x ∈ pxs)

/-- **Queueing several levels.** -/
theorem Queued.withdraws {pxs : List ℤ} (hg : g.Queued) (hnodup : pxs.Nodup)
    (hmem : ∀ px ∈ pxs, px ∈ (g.levels s).ticks) :
    Withdraws s pxs g (pxs.foldl (fun g px => g.withdraw s px) g) := by
  induction pxs generalizing g with
  | nil => exact ⟨hg, rfl, rfl, fun _ _ => Iff.rfl, fun t x => by simp⟩
  | cons px pxs ih =>
    obtain ⟨hpx, hnodup⟩ := List.nodup_cons.mp hnodup
    have hhead := hmem px List.mem_cons_self
    have hrest : ∀ x ∈ pxs, x ∈ ((g.withdraw s px).levels s).ticks := fun x hx =>
      mem_withdraw.mpr ⟨hmem x (List.mem_cons_of_mem _ hx), fun h => hpx (h.2 ▸ hx)⟩
    have h := ih (hg.withdraw hhead) hnodup hrest
    refine ⟨h.queued, h.ref.trans (withdraw_ref _ _ _), h.tick.trans (withdraw_tick _ _ _),
      fun t x => (h.shown t x).trans (shown_withdraw hhead t x), fun t x => ?_⟩
    rw [List.foldl_cons, h.mem, mem_withdraw, List.mem_cons, and_assoc, ← not_or, ← and_or_left]

/-! ## The reference moves -/

theorem mem_bestFirst {x : ℤ} : x ∈ g.bestFirst s ↔ x ∈ (g.levels s).ticks := by
  cases s
  · exact List.mem_reverse
  · exact Iff.rfl

theorem Queued.queueInvalid (hg : g.Queued) (s : BookSide) :
    Withdraws s ((g.levels s).ticks.filter (g.invalid s)) g (g.queueInvalid s) :=
  hg.withdraws ((g.levels s).nodup.filter _) fun _ hx => (List.mem_filter.mp hx).1

/-- **The window does not wrap around** where ten ticks have room. -/
theorem grid_eq {ref tick k : ℤ} (h : InRange ref tick) (htick : 1 ≤ tick) (hlo : 1 ≤ k)
    (hhi : k ≤ kLevelsPerSide) (s : BookSide) : grid ref tick s k = exactGrid ref tick s k := by
  have hk : kLevelsPerSide = 10 := rfl
  have hpos : 0 < tick * k := mul_pos htick hlo
  have hle : tick * k ≤ tick * 10 := mul_le_mul_of_nonneg_left hhi (by omega)
  obtain ⟨⟨h₁, h₂⟩, h₃, h₄⟩ := h
  rw [hk] at h₁ h₂ h₃ h₄
  have hprod : wrapI64 (tick * k) = tick * k := wrapI64_of_inI64 ⟨by omega, by omega⟩
  cases s <;> unfold grid exactGrid <;> dsimp only <;> rw [hprod]
  · exact wrapI64_of_inI64 ⟨by omega, by omega⟩
  · exact wrapI64_of_inI64 ⟨by omega, by omega⟩

theorem InWindow.inI64 {ref tick : ℤ} (h : InWindow ref tick s px) (htick : 1 ≤ tick) :
    InI64 px := by
  obtain ⟨hrange, k, hlo, hhi, rfl⟩ := h
  rw [← grid_eq hrange htick hlo hhi]
  cases s
  · exact inI64_wrapI64 _
  · exact inI64_wrapI64 _

theorem invalid_exactGrid (h : InRange g.ref g.tick) (htick : 1 ≤ g.tick) (k : ℤ) :
    g.invalid s (exactGrid g.ref g.tick s k) = false ↔
      0 < g.tick * k ∧ g.tick * k ≤ g.tick * kLevelsPerSide := by
  have hk : kLevelsPerSide = 10 := rfl
  have hlow := wrapI64_of_inI64 h.1
  have hhigh := wrapI64_of_inI64 h.2
  have hwindow : wrapI64 (kLevelsPerSide * g.tick) = kLevelsPerSide * g.tick := by
    obtain ⟨⟨h₁, h₂⟩, h₃, h₄⟩ := h
    rw [hk] at h₁ h₂ h₃ h₄ ⊢
    exact wrapI64_of_inI64 ⟨by omega, by omega⟩
  unfold invalid exactGrid
  dsimp only
  rw [hwindow, hlow, hhigh]
  cases s with
  | bid =>
    rw [Bool.or_eq_false_iff, decide_eq_false_iff_not, decide_eq_false_iff_not]
    constructor <;> rintro ⟨h₁, h₂⟩ <;> constructor <;> linarith
  | ask =>
    rw [Bool.or_eq_false_iff, decide_eq_false_iff_not, decide_eq_false_iff_not]
    constructor <;> rintro ⟨h₁, h₂⟩ <;> constructor <;> linarith

theorem inWindow_of_valid (hrange : InRange g.ref g.tick) (htick : 1 ≤ g.tick) {k : ℤ}
    (h : g.invalid s (exactGrid g.ref g.tick s k) = false) :
    InWindow g.ref g.tick s (exactGrid g.ref g.tick s k) := by
  obtain ⟨hlo, hhi⟩ := (invalid_exactGrid hrange htick k).mp h
  have hpos : 0 < g.tick := htick
  exact ⟨hrange, k, pos_of_mul_pos_right hlo hpos.le, le_of_mul_le_mul_left hhi hpos, rfl⟩

theorem exactGrid_move (ref tick d : ℤ) (s : BookSide) (k : ℤ) :
    ∃ j, exactGrid ref tick s k = exactGrid (ref + d * tick) tick s j := by
  cases s with
  | bid => exact ⟨k + d, by unfold exactGrid; ring⟩
  | ask => exact ⟨k - d, by unfold exactGrid; ring⟩

theorem move_eq {ref tick d : ℤ} (h : InRange ref tick) (hd : d = 1 ∨ d = -1) :
    wrapI64 (ref + d * tick) = ref + d * tick := by
  have hk : kLevelsPerSide = 10 := rfl
  obtain ⟨⟨h₁, h₂⟩, h₃, h₄⟩ := h
  rw [hk] at h₁ h₂ h₃ h₄
  rcases hd with rfl | rfl
  · exact wrapI64_of_inI64 ⟨by omega, by omega⟩
  · exact wrapI64_of_inI64 ⟨by omega, by omega⟩

/-- **Queueing what a move invalidates.** -/
theorem Queued.queueInvalidLevels (hg : g.Queued) {ref d : ℤ} (hd : d = 1 ∨ d = -1)
    (hmove : g.ref = wrapI64 (ref + d * g.tick)) (hrange : InRange g.ref g.tick)
    (hwindow : ∀ s, ∀ px ∈ (g.levels s).ticks, InWindow ref g.tick s px) :
    g.queueInvalidLevels.Consistent ∧ ∀ s px, g.queueInvalidLevels.Shown s px ↔ g.Shown s px := by
  have hb := hg.queueInvalid .bid
  have ha := hb.queued.queueInvalid .ask
  have href : g.queueInvalidLevels.ref = g.ref := ha.ref.trans hb.ref
  have htick : g.queueInvalidLevels.tick = g.tick := ha.tick.trans hb.tick
  have hinvalid : (g.queueInvalid .bid).invalid = g.invalid := by
    unfold invalid
    rw [hb.ref, hb.tick]
  refine ⟨{ ha.queued with window := fun s px hpx => ?_ },
    fun s px => (ha.shown s px).trans (hb.shown s px)⟩
  obtain ⟨hpx₁, hask⟩ := (ha.mem s px).mp hpx
  obtain ⟨hpx₀, hbid⟩ := (hb.mem s px).mp hpx₁
  -- what is left was found valid in the loop over its side
  have hvalid : g.invalid s px = false := by
    refine Bool.eq_false_iff.mpr fun h => ?_
    cases s with
    | bid => exact hbid ⟨rfl, List.mem_filter.mpr ⟨hpx₀, h⟩⟩
    | ask => exact hask ⟨rfl, List.mem_filter.mpr ⟨hpx₁, hinvalid ▸ h⟩⟩
  obtain ⟨hold, k, -, -, rfl⟩ := hwindow s px hpx₀
  have hmove' : g.ref = ref + d * g.tick := hmove.trans (move_eq hold hd)
  obtain ⟨j, hj⟩ := exactGrid_move ref g.tick d s k
  rw [href, htick, hj, ← hmove']
  rw [hj, ← hmove'] at hvalid
  exact inWindow_of_valid hrange hg.tick_pos hvalid

/-- The event that the generator emits, by what it does to the levels shown. -/
structure Emits (g : SyntheticBookGenerator) (ev : MarketEvent) (g' : SyntheticBookGenerator) :
    Prop where
  consistent : g'.Consistent
  shown : ∀ s px, g'.Shown s px ↔
    if ev.Writes s (.fromTicks px) then ev.type = .quote else g.Shown s px
  no_snapshot : ev.type ≠ .snapshot
  price : InI64 ev.price.ticks
  quantity_mem : 0 ≤ ev.quantity ∧ ev.quantity ≤ 500
  quantity : ev.type = .quote → ev.quantity ≠ 0
  delete : ev.type = .bookDelete → g.Shown ev.side.book ev.price.ticks
  trade : ev.type = .trade → g.Shown ev.side.book.other ev.price.ticks

theorem Emits.congr {g₁ : SyntheticBookGenerator} {ev : MarketEvent} (h : Emits g₁ ev g')
    (hg : ∀ s px, g₁.Shown s px ↔ g.Shown s px) : Emits g ev g' where
  consistent := h.consistent
  shown s px := by
    rw [h.shown, hg]
  no_snapshot := h.no_snapshot
  price := h.price
  quantity_mem := h.quantity_mem
  quantity := h.quantity
  delete hev := (hg _ _).mp (h.delete hev)
  trade hev := (hg _ _).mp (h.trade hev)

/-- The levels, the queue, the reference and the tick are the same. -/
structure SameLevels (g g' : SyntheticBookGenerator) : Prop where
  levels : g'.levels = g.levels
  pending : g'.pending = g.pending
  ref : g'.ref = g.ref
  tick : g'.tick = g.tick

/-- An attempt emits an event, or changes no level. -/
inductive Attempt (g : SyntheticBookGenerator) : Option MarketEvent × SyntheticBookGenerator → Prop
  | none {g' : SyntheticBookGenerator} : SameLevels g g' → Attempt g (none, g')
  | some {ev : MarketEvent} {g' : SyntheticBookGenerator} : Emits g ev g' → Attempt g (some ev, g')

theorem SameLevels.shown (h : SameLevels g g') (s : BookSide) (px : ℤ) :
    g'.Shown s px ↔ g.Shown s px := by
  unfold Shown
  rw [h.levels, h.pending]

theorem SameLevels.inRange (h : SameLevels g g') (hrange : InRange g.ref g.tick) :
    InRange g'.ref g'.tick := by
  rw [h.ref, h.tick]
  exact hrange

theorem Consistent.congr (hg : g.Consistent) (h : SameLevels g g') : g'.Consistent where
  tick_pos := by
    rw [h.tick]
    exact hg.tick_pos
  anchor := by
    obtain ⟨ref, href⟩ := hg.anchor
    rw [h.tick]
    exact ⟨ref, fun s px hx => href s px ((h.shown s px).mp hx)⟩
  disjoint := by
    rw [h.levels, h.pending]
    exact hg.disjoint
  nodup := by
    rw [h.pending]
    exact hg.nodup
  sides := by
    rw [h.pending]
    exact hg.sides
  window := by
    rw [h.levels, h.ref, h.tick]
    exact hg.window

section Draws

variable {F : Type} [Double F] (draws : Draws F)

/-- **Moving the reference** queues levels and shows what was shown. -/
theorem Consistent.moveReference (hg : g.Consistent)
    (hrange : InRange (g.moveReference draws).ref g.tick) :
    (g.moveReference draws).Consistent ∧
      ∀ s px, (g.moveReference draws).Shown s px ↔ g.Shown s px := by
  unfold SyntheticBookGenerator.moveReference at hrange ⊢
  split_ifs at hrange ⊢ with hpending
  · have hempty : g.pending = [] := List.isEmpty_iff.mp hpending
    dsimp only [unit] at hrange ⊢
    by_cases hmove : draws.unit g.rng < kMoveProbability
    · rw [if_pos hmove] at hrange ⊢
      rw [(sameFrame_queueInvalidLevels _).ref] at hrange
      refine Queued.queueInvalidLevels { hg with } ?_ rfl hrange hg.window
      split_ifs
      · exact .inr rfl
      · exact .inl rfl
    · rw [if_neg hmove]
      exact ⟨hg.congr ⟨rfl, rfl, rfl, rfl⟩, fun _ _ => Iff.rfl⟩
  · exact ⟨hg, fun _ _ => Iff.rfl⟩

/-! ## Activity -/

section Events

variable {ts : Timestamp} {seq : SequenceNumber} {sym : Symbol} {side : BookSide} {x : ℤ}
  {qty : Quantity} {t : BookSide}

theorem writes_quote : (MarketEvent.makeQuote ts seq sym side.side (.fromTicks px) qty).Writes t
    (.fromTicks x) ↔ t = side ∧ x = px := by
  rw [MarketEvent.writes_makeQuote, BookSide.book_side, Price.fromTicks_inj]

theorem writes_delete : (MarketEvent.makeDelete ts seq sym side.side (.fromTicks px)).Writes t
    (.fromTicks x) ↔ t = side ∧ x = px := by
  rw [MarketEvent.writes_makeDelete, BookSide.book_side, Price.fromTicks_inj]

theorem shown_delete {old : Prop} : (old ∧ ¬ (t = side ∧ x = px)) ↔
    if (MarketEvent.makeDelete ts seq sym side.side (.fromTicks px)).Writes t (.fromTicks x) then
      (MarketEvent.makeDelete ts seq sym side.side (.fromTicks px)).type = .quote
    else old := by
  split_ifs with h
  · exact iff_of_false (fun h' => h'.2 (writes_delete.mp h)) EventType.noConfusion
  · exact and_iff_left fun h' => h (writes_delete.mpr h')

end Events

theorem Shown.iff_mem (hp : g.pending = []) : g.Shown s px ↔ px ∈ (g.levels s).ticks := by
  unfold Shown
  rw [hp]
  exact or_iff_left List.not_mem_nil

theorem consistent_of_window (htick : 1 ≤ g.tick) (hp : g.pending = [])
    (h : ∀ s, ∀ px ∈ (g.levels s).ticks, InWindow g.ref g.tick s px) : g.Consistent where
  tick_pos := htick
  anchor := ⟨g.ref, fun s px hpx => h s px ((Shown.iff_mem hp).mp hpx)⟩
  disjoint s px _ := by
    rw [hp]
    exact List.not_mem_nil
  nodup := by
    rw [hp]
    exact List.nodup_nil
  sides x hx := by
    rw [hp] at hx
    cases hx
  window := h

/-- **A quote** puts a level into the window. -/
theorem Consistent.quote (hg : g.Consistent) (hp : g.pending = []) (hpx : InWindow g.ref g.tick s px)
    (ts : Timestamp) (seq : SequenceNumber) (sym : Symbol) {qty : Quantity}
    (hq : 1 ≤ qty ∧ qty ≤ 500)
    (hg' : SameLevels (g.setLevels s ((g.levels s).insert px)) g') :
    Emits g (.makeQuote ts seq sym s.side (.fromTicks px) qty) g' := by
  have hmem : ∀ t x, x ∈ ((g.setLevels s ((g.levels s).insert px)).levels t).ticks ↔
      (t = s ∧ x = px) ∨ x ∈ (g.levels t).ticks := by
    intro t x
    by_cases ht : t = s
    · subst ht
      rw [levels_setLevels_self, LevelSet.mem_insert, and_iff_right rfl]
    · rw [levels_setLevels_ne _ _ _ ht]
      exact (or_iff_right fun h => ht h.1).symm
  have hp' : (g.setLevels s ((g.levels s).insert px)).pending = [] := by
    rw [setLevels_pending, hp]
  have hc : (g.setLevels s ((g.levels s).insert px)).Consistent := by
    refine consistent_of_window ?_ hp' fun t x hx => ?_
    · rw [setLevels_tick]
      exact hg.tick_pos
    · rw [setLevels_ref, setLevels_tick]
      rcases (hmem t x).mp hx with ⟨rfl, rfl⟩ | hx
      · exact hpx
      · exact hg.window t x hx
  have hne : qty ≠ 0 := by lia
  refine ⟨hc.congr hg', fun t x => ?_, EventType.noConfusion, hpx.inI64 hg.tick_pos,
    ⟨zero_le_one.trans hq.1, hq.2⟩, fun _ => hne, EventType.noConfusion, EventType.noConfusion⟩
  rw [hg'.shown, Shown.iff_mem hp', Shown.iff_mem hp, hmem]
  split_ifs with h
  · exact iff_of_true (.inl (writes_quote.mp h)) rfl
  · exact or_iff_right fun h' => h (writes_quote.mpr h')

/-- **A cancellation** takes a level out. -/
theorem Consistent.cancel (hg : g.Consistent) (hp : g.pending = []) (hpx : px ∈ (g.levels s).ticks)
    (ts : Timestamp) (seq : SequenceNumber) (sym : Symbol)
    (hg' : SameLevels (g.setLevels s ((g.levels s).erase px)) g') :
    Emits g (.makeDelete ts seq sym s.side (.fromTicks px)) g' := by
  have hmem : ∀ t x, x ∈ ((g.setLevels s ((g.levels s).erase px)).levels t).ticks ↔
      x ∈ (g.levels t).ticks ∧ ¬ (t = s ∧ x = px) := by
    intro t x
    rw [← withdraw_levels]
    exact mem_withdraw
  have hp' : (g.setLevels s ((g.levels s).erase px)).pending = [] := by
    rw [setLevels_pending, hp]
  have hc : (g.setLevels s ((g.levels s).erase px)).Consistent := by
    refine consistent_of_window ?_ hp' fun t x hx => ?_
    · rw [setLevels_tick]
      exact hg.tick_pos
    · rw [setLevels_ref, setLevels_tick]
      exact hg.window t x ((hmem t x).mp hx).1
  refine ⟨hc.congr hg', fun t x => ?_, EventType.noConfusion,
    (hg.window s px hpx).inI64 hg.tick_pos, ⟨le_rfl, show (0 : ℤ) ≤ 500 by decide⟩,
    EventType.noConfusion, fun _ => ?_, EventType.noConfusion⟩
  · rw [hg'.shown, Shown.iff_mem hp', Shown.iff_mem hp, hmem]
    exact shown_delete
  · show g.Shown s.side.book px
    rw [BookSide.book_side]
    exact .inl hpx

/-- **A queued deletion** is emitted. -/
theorem Consistent.emitPending (hg : g.Consistent) {side : Side} {pending : List (Side × ℤ)}
    (hp : g.pending = (side, px) :: pending) (ts : Timestamp) (seq : SequenceNumber) (sym : Symbol) :
    Emits g (.makeDelete ts seq sym side (.fromTicks px)) { g with pending } := by
  have hhead : (side, px) ∈ g.pending := hp ▸ List.mem_cons_self
  have htail : ∀ x ∈ pending, x ∈ g.pending := fun x hx => hp ▸ List.mem_cons_of_mem _ hx
  have hnodup := hg.nodup
  rw [hp] at hnodup
  obtain ⟨hnot, hrest⟩ := List.nodup_cons.mp hnodup
  obtain ⟨s, rfl⟩ : ∃ s : BookSide, side = s.side := hg.sides _ hhead
  have hshown : ∀ t x, ({ g with pending } : SyntheticBookGenerator).Shown t x ↔
      g.Shown t x ∧ ¬ (t = s ∧ x = px) := by
    intro t x
    have hiff : g.Shown t x ↔ x ∈ (g.levels t).ticks ∨ (t = s ∧ x = px) ∨ (t.side, x) ∈ pending := by
      unfold Shown
      rw [hp, List.mem_cons, Prod.mk.injEq, BookSide.side_inj]
    have hiff' : ({ g with pending } : SyntheticBookGenerator).Shown t x ↔
        x ∈ (g.levels t).ticks ∨ (t.side, x) ∈ pending := by
      cases t <;> exact Iff.rfl
    rw [hiff, hiff']
    by_cases h : t = s ∧ x = px
    · obtain ⟨rfl, rfl⟩ := h
      exact iff_of_false (fun hor => hor.elim (fun hx => hg.disjoint t x hx hhead) hnot)
        fun hand => hand.2 ⟨rfl, rfl⟩
    · rw [or_iff_right h, and_iff_left h]
  refine ⟨⟨⟨hg.tick_pos, ?_, fun t x hx hx' => ?_, hrest, fun x hx => hg.sides x (htail x hx)⟩, ?_⟩,
    fun t x => ?_, EventType.noConfusion, ?_, ⟨le_rfl, show (0 : ℤ) ≤ 500 by decide⟩,
    EventType.noConfusion, fun _ => ?_, EventType.noConfusion⟩
  · obtain ⟨ref, href⟩ := hg.anchor
    exact ⟨ref, fun t x hx => href t x ((hshown t x).mp hx).1⟩
  · refine hg.disjoint t x ?_ (htail _ hx')
    cases t <;> exact hx
  · intro t x hx
    refine hg.window t x ?_
    cases t <;> exact hx
  · rw [hshown]
    exact shown_delete
  · obtain ⟨ref, href⟩ := hg.anchor
    exact (href s px (.inr hhead)).inI64 hg.tick_pos
  · show g.Shown s.side.book px
    rw [BookSide.book_side]
    exact .inr hhead

/-- **A trade** shows the level it prints at, and leaves it. -/
theorem Consistent.trade (hg : g.Consistent) {pxs : List ℤ} (hnodup : pxs.Nodup)
    (hmem : ∀ x ∈ pxs, x ∈ (g.levels s).ticks) (hpx : px ∈ (g.levels s).ticks)
    (ts : Timestamp) (seq : SequenceNumber) (sym : Symbol) {qty : Quantity}
    (hq : 1 ≤ qty ∧ qty ≤ 500) (hg' : SameLevels (pxs.foldl (fun g px => g.withdraw s px) g) g') :
    Emits g (.makeTrade ts seq sym s.other.side (.fromTicks px) qty) g' := by
  have h := hg.toQueued.withdraws hnodup hmem
  have hc : (pxs.foldl (fun g px => g.withdraw s px) g).Consistent :=
    { h.queued with
      window := fun t x hx => by
        rw [h.ref, h.tick]
        exact hg.window t x ((h.mem t x).mp hx).1 }
  refine ⟨hc.congr hg', fun t x => ?_, EventType.noConfusion,
    (hg.window s px hpx).inI64 hg.tick_pos, ⟨zero_le_one.trans hq.1, hq.2⟩, EventType.noConfusion,
    EventType.noConfusion, fun _ => ?_⟩
  · rw [hg'.shown, h.shown, if_neg]
    rintro ⟨hw | hw, -⟩ <;> cases hw
  · show g.Shown s.other.side.book.other px
    rw [BookSide.book_side, BookSide.other_other]
    exact .inl hpx

theorem Consistent.makeQuote [TruncNonneg F] (hg : g.Consistent) (hp : g.pending = [])
    (hrange : InRange g.ref g.tick) :
    Emits g (g.makeQuote draws).1 (g.makeQuote draws).2 := by
  have hten : (0 : ℤ) ≤ kLevelsPerSide := by decide
  have hlevel := TruncNonneg.toInt_mul_nonneg (draws.pow (draws.unit (g.rng + 1)) (ofInt 2))
    (ofInt kLevelsPerSide : F) (draws.pow_nonneg _ _ (draws.unit_nonneg _))
    (TruncNonneg.ofInt_nonneg _ hten)
  have hqty := fun n => draws.uniformInt_mem n 1 500 (by decide)
  have hk : kLevelsPerSide = 10 := rfl
  have hg₂ : ({ g with rng := g.rng + 1 + 1 } : SyntheticBookGenerator).Consistent :=
    hg.congr ⟨rfl, rfl, rfl, rfl⟩
  unfold SyntheticBookGenerator.makeQuote
  dsimp only [unit, SyntheticBookGenerator.qty, uniformInt]
  generalize (if draws.unit g.rng < ofInt 1 / ofInt 2 then BookSide.bid else BookSide.ask) = side
  have hpx : InWindow g.ref g.tick side (grid g.ref g.tick side (min (toInt (draws.pow
      (draws.unit (g.rng + 1)) (ofInt 2) * ofInt kLevelsPerSide)) (kLevelsPerSide - 1) + 1)) :=
    ⟨hrange, _, by omega, by omega, grid_eq hrange hg.tick_pos (by omega) (by omega) side⟩
  refine (hg₂.quote hp hpx _ _ _ (hqty _) ?_).congr fun s px => Iff.rfl
  exact ⟨rfl, rfl, rfl, rfl⟩

theorem sweepLoop_spec (room sweep : ℕ) (g : SyntheticBookGenerator) :
    sweep ≤ (sweepLoop draws room sweep g).1 ∧ SameLevels g (sweepLoop draws room sweep g).2 := by
  induction room generalizing sweep g with
  | zero => exact ⟨le_refl _, rfl, rfl, rfl, rfl⟩
  | succ room ih =>
    unfold sweepLoop
    dsimp only [unit]
    split_ifs
    · obtain ⟨hle, h⟩ := ih (sweep + 1) { g with rng := g.rng + 1 }
      exact ⟨(Nat.le_succ _).trans hle, h.levels, h.pending, h.ref, h.tick⟩
    · exact ⟨le_refl _, rfl, rfl, rfl, rfl⟩

theorem nodup_bestFirst (g : SyntheticBookGenerator) (s : BookSide) : (g.bestFirst s).Nodup := by
  cases s with
  | bid => exact List.nodup_reverse.mpr g.bids.nodup
  | ask => exact g.asks.nodup

theorem swept_spec (hsize : (g.levels s).ticks.length ≠ 0) {sweep : ℕ} (hsweep : 1 ≤ sweep) :
    ((g.bestFirst s).take sweep).dropLast.Nodup ∧
      (∀ x ∈ ((g.bestFirst s).take sweep).dropLast, x ∈ (g.levels s).ticks) ∧
      ((g.bestFirst s).take sweep).getLastD 0 ∈ (g.levels s).ticks := by
  have hmem : ∀ x ∈ (g.bestFirst s).take sweep, x ∈ (g.levels s).ticks := fun x hx =>
    mem_bestFirst.mp (List.mem_of_mem_take hx)
  have hne : (g.bestFirst s).take sweep ≠ [] := by
    rw [Ne, List.take_eq_nil_iff, not_or]
    refine ⟨by omega, fun hnil => hsize ?_⟩
    refine List.length_eq_zero_iff.mpr (List.eq_nil_iff_forall_not_mem.mpr fun x hx => ?_)
    have hx' := mem_bestFirst.mpr hx
    rw [hnil] at hx'
    cases hx'
  refine ⟨?_, fun x hx => hmem x (List.dropLast_subset _ hx), ?_⟩
  · exact ((nodup_bestFirst g s).sublist (List.take_sublist _ _)).sublist (List.dropLast_sublist _)
  · rw [List.getLastD_eq_getLast?, List.getLast?_eq_some_getLast hne]
    exact hmem _ (List.getLast_mem hne)

theorem Consistent.tryTrade (hg : g.Consistent) : Attempt g (g.tryTrade draws) := by
  unfold SyntheticBookGenerator.tryTrade
  dsimp only [unit]
  generalize (if draws.unit g.rng < ofInt 1 / ofInt 2 then BookSide.ask else BookSide.bid) = side
  split_ifs with hsize
  · exact .none ⟨rfl, rfl, rfl, rfl⟩
  · have hloop := sweepLoop_spec draws ((g.levels side).ticks.length - 1) 1 { g with rng := g.rng + 1 }
    have hsame : ∀ s, ({ g with rng := g.rng + 1 } : SyntheticBookGenerator).levels s = g.levels s :=
      fun s => rfl
    rw [hsame] at hsize ⊢
    generalize sweepLoop draws ((g.levels side).ticks.length - 1) 1 { g with rng := g.rng + 1 } = r
      at hloop ⊢
    obtain ⟨sweep, g₁⟩ := r
    obtain ⟨hsweep, h₁⟩ := hloop
    have hg₁ : SameLevels g g₁ := ⟨h₁.levels, h₁.pending, h₁.ref, h₁.tick⟩
    rw [← hg₁.levels] at hsize
    obtain ⟨hnodup, hmem, hpx⟩ := swept_spec hsize hsweep
    have hqty := fun n => draws.uniformInt_mem n 1 500 (by decide)
    refine .some (((hg.congr hg₁).trade hnodup hmem hpx _ _ _ (hqty _) ?_).congr hg₁.shown)
    exact ⟨rfl, rfl, rfl, rfl⟩

theorem Consistent.tryCancel (hg : g.Consistent) (hp : g.pending = []) :
    Attempt g (g.tryCancel draws) := by
  unfold SyntheticBookGenerator.tryCancel
  dsimp only [unit, uniformInt]
  generalize (if draws.unit g.rng < ofInt 1 / ofInt 2 then BookSide.bid else BookSide.ask) = side
  split_ifs with hsize
  · exact .none ⟨rfl, rfl, rfl, rfl⟩
  · have hlen : 0 < (g.levels side).ticks.length := Nat.pos_of_ne_zero hsize
    have hlt : (0 : ℤ) ≤ ((g.levels side).ticks.length : ℤ) - 1 := by omega
    obtain ⟨hlo, hhi⟩ := draws.uniformInt_mem (g.rng + 1) 0 _ hlt
    have hidx : (draws.uniformInt (g.rng + 1) 0 (((g.levels side).ticks.length : ℤ) - 1)).toNat <
        (g.levels side).ticks.length := by omega
    have hmem := List.getElem_mem hidx
    rw [← List.getD_eq_getElem _ 0 hidx] at hmem
    have hg₂ : ({ g with rng := g.rng + 1 + 1 } : SyntheticBookGenerator).Consistent :=
      hg.congr ⟨rfl, rfl, rfl, rfl⟩
    refine .some ((hg₂.cancel hp hmem _ _ _ ?_).congr fun s px => Iff.rfl)
    exact ⟨rfl, rfl, rfl, rfl⟩

/-! ## One call -/

/-- **What happens while nothing is queued.** -/
theorem Consistent.activity [TruncNonneg F] (hg : g.Consistent) (hp : g.pending = [])
    (hrange : InRange g.ref g.tick) :
    Emits g (g.activity draws).1 (g.activity draws).2 := by
  have hg₁ : SameLevels g { g with rng := g.rng + 1 } := ⟨rfl, rfl, rfl, rfl⟩
  have hc := hg.congr hg₁
  unfold SyntheticBookGenerator.activity
  dsimp only [unit]
  split_ifs
  · refine ⟨hc, fun s px => ?_, EventType.noConfusion, show InI64 0 by decide,
      ⟨le_rfl, show (0 : ℤ) ≤ 500 by decide⟩, EventType.noConfusion, EventType.noConfusion,
      EventType.noConfusion⟩
    rw [hg₁.shown, if_neg]
    rintro ⟨hw | hw, -⟩ <;> cases hw
  · have h := hc.tryTrade draws
    generalize SyntheticBookGenerator.tryTrade draws { g with rng := g.rng + 1 } = r at h
    cases h with
    | none h => exact ((hc.congr h).makeQuote draws (h.pending.trans hp)
        (h.inRange hrange)).congr h.shown
    | some h => exact h.congr hg₁.shown
  · have h := hc.tryCancel draws hp
    generalize SyntheticBookGenerator.tryCancel draws { g with rng := g.rng + 1 } = r at h
    cases h with
    | none h => exact ((hc.congr h).makeQuote draws (h.pending.trans hp)
        (h.inRange hrange)).congr h.shown
    | some h => exact h.congr hg₁.shown
  · exact (hc.makeQuote draws hp hrange).congr hg₁.shown

/-- **Every call** emits an event that keeps the generator consistent. -/
theorem Consistent.next_emits [TruncNonneg F] (hg : g.Consistent)
    (hrange : InRange (g.nextRef draws) g.tick) :
    Emits g (g.next draws).1 (g.next draws).2 := by
  have hclock : SameLevels g (g.tickClock draws) := ⟨rfl, rfl, rfl, rfl⟩
  obtain ⟨hc, hshown⟩ := (hg.congr hclock).moveReference draws hrange
  have htick := (moves_moveReference draws (g.tickClock draws)).tick
  unfold nextRef at hrange
  unfold SyntheticBookGenerator.next
  dsimp only
  generalize (g.tickClock draws).moveReference draws = g₁ at hc hshown htick hrange ⊢
  have hrange₁ : InRange g₁.ref g₁.tick := htick.symm ▸ hrange
  have hg₁ : ∀ s px, g₁.Shown s px ↔ g.Shown s px := fun s px =>
    (hshown s px).trans (hclock.shown s px)
  cases hp : g₁.pending with
  | nil => exact (hc.activity draws hp hrange₁).congr hg₁
  | cons x pending => exact (hc.emitPending hp _ _ _).congr hg₁

theorem consistent_new (startPrice tickSize : F) (symbol : Symbol)
    (htick : 1 ≤ (Price.fromDouble tickSize).ticks) :
    (new startPrice tickSize symbol).Consistent := by
  refine consistent_of_window htick rfl fun s px hpx => ?_
  cases s <;> cases hpx

end Draws

/-! ## The book of the events -/

/-- The book has the levels shown, and no others. -/
structure ShowsBook (g : SyntheticBookGenerator) (b : OrderBook) : Prop where
  ordered : b.Ordered
  mem : ∀ s px, (∃ lvl ∈ b.levels s, lvl.price = .fromTicks px) ↔ g.Shown s px

variable {b : OrderBook} {ev : MarketEvent}

theorem ShowsBook.apply (h : ShowsBook g b) (he : Emits g ev g') : ShowsBook g' (b.apply ev) := by
  refine ⟨h.ordered.apply ev, fun s px => ?_⟩
  rw [he.shown, ← h.mem]
  have hlevel : ∀ lvl, lvl ∈ (b.apply ev).levels s ↔ if ev.Writes s lvl.price then
      ev.type = .quote ∧ ev.quantity = lvl.quantity ∧ lvl.quantity ≠ 0 else lvl ∈ b.levels s := by
    intro lvl
    rw [mem_apply h.ordered]
    unfold LevelAfter
    rw [if_neg he.no_snapshot]
  constructor
  · rintro ⟨lvl, hlvl, hprice⟩
    rw [hlevel, hprice] at hlvl
    split_ifs at hlvl ⊢ with hw
    · exact hlvl.1
    · exact ⟨lvl, hlvl, hprice⟩
  · intro hshown
    split_ifs at hshown with hw
    · refine ⟨⟨.fromTicks px, ev.quantity⟩, (hlevel _).mpr ?_, rfl⟩
      rw [if_pos hw]
      exact ⟨hshown, rfl, he.quantity hshown⟩
    · obtain ⟨lvl, hlvl, hprice⟩ := hshown
      refine ⟨lvl, (hlevel lvl).mpr ?_, hprice⟩
      rw [hprice, if_neg hw]
      exact hlvl

theorem InWindow.lt_ref {ref tick : ℤ} (h : InWindow ref tick .bid px) (htick : 1 ≤ tick) :
    px < ref := by
  obtain ⟨-, k, hk, -, rfl⟩ := h
  have := mul_pos (show 0 < tick from htick) (show 0 < k from hk)
  unfold exactGrid
  lia

theorem InWindow.ref_lt {ref tick : ℤ} (h : InWindow ref tick .ask px) (htick : 1 ≤ tick) :
    ref < px := by
  obtain ⟨-, k, hk, -, rfl⟩ := h
  have := mul_pos (show 0 < tick from htick) (show 0 < k from hk)
  unfold exactGrid
  lia

theorem ShowsBook.shown_of_mem (h : ShowsBook g b) {lvl : BookLevel} (hlvl : lvl ∈ b.levels s) :
    g.Shown s lvl.price.ticks := (h.mem s lvl.price.ticks).mp ⟨lvl, hlvl, rfl⟩

/-- **The book is not crossed**: the reference of the window stands between its sides. -/
theorem ShowsBook.not_crossed (h : ShowsBook g b) (hg : g.Queued) : b.crossed = false := by
  obtain ⟨ref, href⟩ := hg.anchor
  have hbid : ∀ bb, b.bestBid = some bb → bb.ticks < ref := by
    intro bb hbb
    obtain ⟨lvl, hlvl, rfl⟩ := Option.map_eq_some_iff.mp hbb
    exact (href .bid _ (h.shown_of_mem (s := .bid) (List.mem_of_mem_head? hlvl))).lt_ref hg.tick_pos
  have hask : ∀ ba, b.bestAsk = some ba → ref < ba.ticks := by
    intro ba hba
    obtain ⟨lvl, hlvl, rfl⟩ := Option.map_eq_some_iff.mp hba
    exact (href .ask _ (h.shown_of_mem (s := .ask) (List.mem_of_mem_head? hlvl))).ref_lt hg.tick_pos
  unfold crossed
  cases hb : b.bestBid with
  | none => rfl
  | some bb =>
    cases ha : b.bestAsk with
    | none => rfl
    | some ba => exact decide_eq_false (not_le.mpr ((hbid bb hb).trans (hask ba ha)))

/-- **The book is bounded**: a window has ten prices a side. -/
theorem ShowsBook.length_le (h : ShowsBook g b) (hg : g.Queued) (s : BookSide) :
    ((b.levels s).length : ℤ) ≤ kLevelsPerSide := by
  obtain ⟨ref, href⟩ := hg.anchor
  have hsorted : (b.levels s).Pairwise fun x y => s.Better x.price y.price := h.ordered s
  have hne : ∀ {x y : BookLevel}, s.Better x.price y.price → x.price.ticks ≠ y.price.ticks :=
    fun hxy heq => ne_of_rel hxy (Price.ext heq)
  have hnodup : ((b.levels s).map fun lvl => lvl.price.ticks).Nodup :=
    List.pairwise_map.mpr (hsorted.imp hne)
  have hsub : ((b.levels s).map fun lvl => lvl.price.ticks).toFinset ⊆
      (Finset.Icc 1 kLevelsPerSide).image (exactGrid ref g.tick s) := by
    intro px hpx
    obtain ⟨lvl, hlvl, rfl⟩ := List.mem_map.mp (List.mem_toFinset.mp hpx)
    obtain ⟨-, k, hlo, hhi, hk⟩ := href s _ (h.shown_of_mem hlvl)
    exact Finset.mem_image.mpr ⟨k, Finset.mem_Icc.mpr ⟨hlo, hhi⟩, hk.symm⟩
  have hcard := (Finset.card_le_card hsub).trans Finset.card_image_le
  have hten : (Finset.Icc 1 kLevelsPerSide).card = 10 := rfl
  rw [List.toFinset_card_of_nodup hnodup, List.length_map, hten] at hcard
  exact Int.ofNat_le.mpr hcard

/-! ## Every call -/

section Runs

variable {F : Type} [Double F] [TruncNonneg F] (draws : Draws F)

/-- **Run lemma.** -/
theorem emit_spec (hg : g.Consistent) (sym : Symbol) (hb : ShowsBook g (OrderBook.new sym)) (n : ℕ)
    (hrange : ∀ m < n, InRange ((g.emit draws m).2.nextRef draws) g.tick) :
    (g.emit draws n).2.Consistent ∧
      ShowsBook (g.emit draws n).2 (OrderBook.after sym (g.emit draws n).1) := by
  induction n with
  | zero => exact ⟨hg, hb⟩
  | succ n ih =>
    obtain ⟨hc, hshows⟩ := ih fun m hm => hrange m (Nat.lt_succ_of_lt hm)
    have htick := emit_tick draws g n
    have he := hc.next_emits draws (htick.symm ▸ hrange n (Nat.lt_succ_self n))
    refine ⟨he.consistent, ?_⟩
    rw [emit, OrderBook.after, run_concat]
    exact hshows.apply he

omit [TruncNonneg F] in
theorem showsBook_new (startPrice tickSize : F) (symbol sym : Symbol) :
    (new startPrice tickSize symbol).ShowsBook (OrderBook.new sym) := by
  refine ⟨ordered_new sym, fun s px => iff_of_false ?_ ?_⟩
  · rintro ⟨lvl, hlvl, -⟩
    cases s <;> cases hlvl
  · rintro (hpx | hpx)
    · cases s <;> cases hpx
    · cases hpx

theorem emit_shows (startPrice : F) {tickSize : F} (symbol sym : Symbol)
    (htick : 1 ≤ (Price.fromDouble tickSize).ticks) {n : ℕ}
    (hrange : ∀ m < n, InRange (((new startPrice tickSize symbol).emit draws m).2.nextRef draws)
      (Price.fromDouble tickSize).ticks) :
    ((new startPrice tickSize symbol).emit draws n).2.Consistent ∧
      ShowsBook ((new startPrice tickSize symbol).emit draws n).2
        (OrderBook.after sym ((new startPrice tickSize symbol).emit draws n).1) :=
  emit_spec draws (consistent_new startPrice tickSize symbol htick) sym
    (showsBook_new startPrice tickSize symbol sym) n hrange

/-- **The synthetic book is consistent**, as long as the reference keeps ten ticks away from the ends
of `int64_t`. After any number of calls the book of the events has exactly the prices that the
generator tracks or has queued for deletion, never both; it is not crossed and has at most ten levels
a side; and the next event deletes or prints at a level that is there. -/
theorem synthetic_consistent (startPrice tickSize : F) (symbol sym : Symbol)
    (htick : 1 ≤ (Price.fromDouble tickSize).ticks) (n : ℕ)
    (hrange : ∀ m ≤ n, InRange (((new startPrice tickSize symbol).emit draws m).2.nextRef draws)
      (Price.fromDouble tickSize).ticks) :
    let g := ((new startPrice tickSize symbol).emit draws n).2
    let b := OrderBook.after sym ((new startPrice tickSize symbol).emit draws n).1
    let ev := (g.next draws).1
    (∀ s px, (∃ lvl ∈ b.levels s, lvl.price = .fromTicks px) ↔
      px ∈ (g.levels s).ticks ∨ (s.side, px) ∈ g.pending) ∧
    (∀ s, ∀ px ∈ (g.levels s).ticks, (s.side, px) ∉ g.pending) ∧
    b.crossed = false ∧
    (∀ s, ((b.levels s).length : ℤ) ≤ kLevelsPerSide) ∧
    (ev.type = .bookDelete → ∃ lvl ∈ b.levels ev.side.book, lvl.price = ev.price) ∧
    (ev.type = .trade → ∃ lvl ∈ b.levels ev.side.book.other, lvl.price = ev.price) := by
  intro g b ev
  obtain ⟨hg, hb⟩ : g.Consistent ∧ ShowsBook g b :=
    emit_shows draws startPrice symbol sym htick fun m hm => hrange m hm.le
  have hgtick : g.tick = (Price.fromDouble tickSize).ticks := emit_tick draws _ n
  have he := hg.next_emits draws (hgtick.symm ▸ hrange n le_rfl)
  exact ⟨hb.mem, hg.disjoint, hb.not_crossed hg.toQueued, hb.length_le hg.toQueued,
    fun hev => (hb.mem _ _).mpr (he.delete hev), fun hev => (hb.mem _ _).mpr (he.trade hev)⟩

end Runs

/-- Draws of the given numbers; of the integers the least is drawn, and powers are squares. -/
def givenDraws (u : ℕ → ℚ) (hu : ∀ n, 0 ≤ u n) : Draws ℚ where
  unit := u
  uniformInt _ lo _ := lo
  pow x _ := x * x
  unit_nonneg n := by
    rw [ofInt_rat, Int.cast_zero]
    exact hu n
  uniformInt_mem _ _ _ h := ⟨le_refl _, h⟩
  pow_nonneg x _ _ := by
    rw [ofInt_rat, Int.cast_zero]
    exact mul_self_nonneg x

/-- Hundredths without an evident order. -/
def scatteredDraws : Draws ℚ :=
  givenDraws (fun n => ((n * n * n + 29 * n + 5) % 100 : ℕ) / 100) fun _ =>
    div_nonneg (Nat.cast_nonneg _) (by norm_num)

theorem cent_ticks : (Price.fromDouble (1 / 100 : ℚ)).ticks = 100 := by decide +kernel

theorem inRange_cents (symbol : Symbol) {m : ℕ} (hm : m ≤ 10 ^ 12) :
    InRange (((new (190 : ℚ) (1 / 100) symbol).emit scatteredDraws m).2.nextRef scatteredDraws)
      (Price.fromDouble (1 / 100 : ℚ)).ticks := by
  have hstart : (Price.fromDouble (190 : ℚ)).ticks = 1900000 := by decide +kernel
  refine inRange_of_start scatteredDraws _ ?_ ?_ ?_ hm <;> unfold new <;> dsimp only <;>
    rw [cent_ticks]
  · decide
  · rw [hstart]
    decide
  · rw [hstart]
    decide

/-- Dollars on a grid of cents: the reference moves, both sides are quoted, hit and cancelled, and
the book is not crossed after any of a trillion events. -/
theorem synthetic_consistent_cents :
    let g := new (190 : ℚ) (1 / 100) (Symbol.ofView [])
    (g.emit scatteredDraws 30).2.ref = 1899700 ∧
    (∀ side ∈ [Side.buy, .sell], ∀ type ∈ [EventType.quote, .trade, .bookDelete],
      ∃ ev ∈ (g.emit scatteredDraws 30).1, ev.side = side ∧ ev.type = type) ∧
    ∀ n ≤ 10 ^ 12,
      (OrderBook.after (Symbol.ofView []) (g.emit scatteredDraws n).1).crossed = false :=
  ⟨by decide +kernel, by decide +kernel, fun n hn =>
    (synthetic_consistent scatteredDraws 190 (1 / 100) (Symbol.ofView []) (Symbol.ofView [])
      (by rw [cent_ticks]; decide) n fun _ hm => inRange_cents _ (hm.trans hn)).2.2.1⟩

/-- A bid ten ticks below the reference, then an ask one tick above it. -/
def wideScript : List ℚ := [0, 1 / 2, 1 / 2, 0, 99 / 100, 0, 0, 1 / 2, 1 / 2, 1 / 2, 0]

/-- The draws of the script, then zeros. -/
def wideDraws : Draws ℚ :=
  givenDraws (fun n => wideScript.getD n 0) fun n => by
    by_cases h : n < wideScript.length
    · rw [List.getD_eq_getElem _ _ h]
      exact (by decide +kernel : ∀ x ∈ wideScript, (0 : ℚ) ≤ x) _ (List.getElem_mem h)
    · rw [List.getD_eq_default _ _ (not_lt.mp h)]

/-- **A grid that wraps around** crosses the book: the tenth bid comes out above the first ask. -/
theorem synthetic_consistent_fails :
    ¬ ∀ (draws : Draws ℚ) (startPrice tickSize : ℚ) (symbol sym : Symbol) (n : ℕ),
      1 ≤ (Price.fromDouble tickSize).ticks →
      (OrderBook.after sym ((new startPrice tickSize symbol).emit draws n).1).crossed = false := by
  intro h
  have hcrossed : (OrderBook.after (Symbol.ofView [])
      ((new (0 : ℚ) (10 ^ 14) (Symbol.ofView [])).emit wideDraws 2).1).crossed = true := by
    decide +kernel
  have huncrossed := h wideDraws 0 (10 ^ 14) (Symbol.ofView []) (Symbol.ofView []) 2
    (by decide +kernel)
  exact Bool.false_ne_true (huncrossed.symm.trans hcrossed)

end SyntheticBookGenerator

end Lob
