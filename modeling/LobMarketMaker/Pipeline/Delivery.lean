import LobMarketMaker.OrderBook.LastWriter
import LobMarketMaker.Pipeline.History
import Mathlib.Data.List.Chain

/-!
# Lossy delivery shows no phantom liquidity

Events of a stream with consecutive sequence numbers reach the pipeline in any selection, order and
multiplicity. Its book is always that of a contiguous piece of the stream which ends at the last
accepted event and starts at the last resync.

* `process_book`: the book after an accepted event;
* `Delivered`: the invariant; `Delivered.accept`: an accepted event extends the piece or starts a
  new one;
* **`no_phantom_liquidity`**.
-/

set_option autoImplicit false

namespace Lob

open Foundation

/-! ## Levels of a book -/

namespace OrderBook

variable {b b' : OrderBook}

theorem levels_apply_congr (h : ∀ s, b.levels s = b'.levels s) (ev : MarketEvent) (s : BookSide) :
    (b.apply ev).levels s = (b'.apply ev).levels s := by
  have hs : ∀ t, (b.stamp ev).levels t = (b'.stamp ev).levels t := by
    intro t
    rw [levels_stamp, levels_stamp, h]
  unfold apply
  cases ev.type with
  | quote =>
    show ((b.stamp ev).upsert _ _ _).levels s = ((b'.stamp ev).upsert _ _ _).levels s
    unfold upsert
    by_cases hside : s = ev.side.book
    · rw [hside, levels_setLevels_self, levels_setLevels_self, hs]
    · rw [levels_setLevels_ne _ hside, levels_setLevels_ne _ hside, hs]
  | bookDelete =>
    show ((b.stamp ev).erase _ _).levels s = ((b'.stamp ev).erase _ _).levels s
    unfold erase
    rw [hs]
    dsimp only
    split_ifs
    · by_cases hside : s = ev.side.book
      · rw [hside, levels_setLevels_self, levels_setLevels_self]
      · rw [levels_setLevels_ne _ hside, levels_setLevels_ne _ hside, hs]
    · exact hs s
  | trade => cases s <;> first | exact hs .bid | exact hs .ask
  | snapshot => rw [levels_clear, levels_clear]
  | heartbeat => exact hs s
  | unnamed raw hraw => exact hs s

theorem levels_clear_apply (b : OrderBook) (symbol : Symbol) (ev : MarketEvent) (s : BookSide) :
    (b.clear.apply ev).levels s = (after symbol [ev]).levels s := by
  refine levels_apply_congr (fun t => ?_) ev s
  rw [levels_clear]
  cases t <;> rfl

theorem mem_levels_of_suffix {symbol : Symbol} {evs : List MarketEvent} {s : BookSide}
    {lvl : BookLevel} (h : lvl ∈ (after symbol evs).levels s) (earlier : List MarketEvent) :
    lvl ∈ (after symbol (earlier ++ evs)).levels s := by
  rw [(after_spec symbol _).2] at h ⊢
  exact h.prepend earlier

end OrderBook

/-! ## Streams -/

/-- The sequence numbers count up one by one. -/
abbrev Consecutive (es : List MarketEvent) : Prop :=
  es.IsChain fun a b => b.sequence = a.sequence + 1

section Streams

variable {es pre post : List MarketEvent} {ev : MarketEvent}

theorem Consecutive.pairwise (h : Consecutive es) :
    es.Pairwise fun a b => a.sequence < b.sequence := by
  have hlt : es.IsChain fun a b => a.sequence < b.sequence := h.imp fun a b hab => by lia
  exact List.isChain_iff_pairwise.mp hlt

theorem Consecutive.split (h : Consecutive (pre ++ ev :: post)) :
    (∀ x ∈ pre, x.sequence < ev.sequence) ∧ ∀ x ∈ post, ev.sequence < x.sequence := by
  obtain ⟨-, hcons, hcross⟩ := List.pairwise_append.mp h.pairwise
  exact ⟨fun x hx => hcross x hx ev List.mem_cons_self, (List.pairwise_cons.mp hcons).1⟩

theorem Consecutive.next_iff {mid : List MarketEvent} {ev' : MarketEvent}
    (h : Consecutive (pre ++ ev :: (mid ++ ev' :: post))) :
    ev'.sequence = ev.sequence + 1 ↔ mid = [] := by
  constructor
  · intro hnext
    cases mid with
    | nil => rfl
    | cons m mid =>
      have hm : ev.sequence < m.sequence := h.split.2 m List.mem_cons_self
      have hm' : m.sequence < ev'.sequence := by
        have h' : Consecutive ((pre ++ ev :: m :: mid) ++ ev' :: post) := by
          rw [List.append_assoc]
          exact h
        refine h'.split.1 m ?_
        simp
      lia
  · rintro rfl
    exact (List.isChain_cons_cons.mp h.right_of_append).1

theorem Consecutive.split_unique (h : Consecutive es) {pre' post' : List MarketEvent}
    (h₁ : es = pre ++ ev :: post) (h₂ : es = pre' ++ ev :: post') : pre = pre' := by
  have hnodup : (pre ++ ev :: post).Nodup := by
    rw [← h₁]
    exact h.pairwise.imp fun hab hne => absurd (congrArg MarketEvent.sequence hne) hab.ne
  obtain ⟨-, hcons, hdisj⟩ := List.nodup_append.mp hnodup
  have hpre : ev ∉ pre := fun hx => hdisj ev hx ev List.mem_cons_self rfl
  have hpost : ev ∉ post := (List.nodup_cons.mp hcons).1
  have heq := h₂.symm.trans h₁
  exact ((List.append_cons_inj_of_notMem hpre hpost).mp heq.symm).1

end Streams

namespace Pipeline

variable {F : Type} [Double F] {host : Host F} {p : Pipeline F} {ev : MarketEvent}

/-! ## One event -/

/-- The book that an accepted event is applied to: empty after a resync. -/
def bookFor (p : Pipeline F) (ev : MarketEvent) : OrderBook :=
  if p.gap ev || p.stale ev then p.book.clear else p.book

theorem bookFor_ordered (h : p.book.Ordered) (ev : MarketEvent) : (p.bookFor ev).Ordered := by
  unfold bookFor
  split_ifs
  · intro s
    rw [OrderBook.levels_clear]
    exact sorted_nil _ _
  · exact h

/-- The stale resets once the event is accepted. -/
def staleResetsFor (p : Pipeline F) (ev : MarketEvent) : ℕ :=
  if p.stale ev then p.stats.staleResets + 1 else p.stats.staleResets

theorem intake_book (p : Pipeline F) (ev : MarketEvent) :
    (p.counted.intake ev).book = p.bookFor ev ∧
      (p.counted.intake ev).stats.staleResets = p.staleResetsFor ev := by
  have hm := SameMarket.cancelRestingQuotes (p.counted.track ev) ev.timestamp
  unfold intake bookFor
  show (if p.gap ev || p.stale ev then _ else _ : Pipeline F).book = _ ∧
    (if p.gap ev || p.stale ev then _ else _ : Pipeline F).stats.staleResets = _
  split_ifs
  · exact ⟨congrArg OrderBook.clear hm.book, hm.staleResets⟩
  · exact ⟨rfl, rfl⟩

/-- **The book after an accepted event.** -/
theorem process_book (host : Host F) (h : p.outOfOrder ev = false) :
    (p.process host ev).book = (p.bookFor ev).apply ev ∧
      (p.process host ev).stats.staleResets = p.staleResetsFor ev := by
  refine process_rule
    (A := fun q => q.book = p.bookFor ev ∧ q.stats.staleResets = p.staleResetsFor ev)
    (B := fun q => q.book = (p.bookFor ev).apply ev ∧ q.stats.staleResets = p.staleResetsFor ev)
    (C := fun q => q.book = (p.bookFor ev).apply ev ∧ q.stats.staleResets = p.staleResetsFor ev)
    (D := fun q => q.book = (p.bookFor ev).apply ev ∧ q.stats.staleResets = p.staleResetsFor ev)
    ?_ ?_ ?_ h (intake_book p ev) ?_ ?_ ?_
  · exact blind_of (fun _ hq => hq) (fun _ hq => hq)
  · exact blind_of (fun _ hq => hq) (fun _ hq => hq)
  · exact blind_of (fun _ hq => hq) (fun _ hq => hq)
  · exact fun q hq => ⟨congrArg (·.apply ev) hq.1, hq.2⟩
  · intro q hq
    have hs := SameFeed.execute host q ev
    exact ⟨hs.book.trans hq.1, hs.staleResets.trans hq.2⟩
  · intro q hq
    have hs := SameFeed.settle host q ev
    exact ⟨hs.book.trans hq.1, hs.staleResets.trans hq.2⟩

/-! ## The invariant -/

variable {symbol : Symbol} {es acc pre seg post : List MarketEvent}

/-- The last accepted event is `ev`, and the book is that of the piece `seg ++ [ev]` of the stream.
The piece starts late only if an earlier event was not accepted or there was a stale reset. -/
structure Delivered (symbol : Symbol) (es acc : List MarketEvent) (p : Pipeline F)
    (pre seg : List MarketEvent) (ev : MarketEvent) (post : List MarketEvent) : Prop where
  stream : es = pre ++ seg ++ ev :: post
  last : p.lastSequence = some ev.sequence
  levels : ∀ s, p.book.levels s = (OrderBook.after symbol (seg ++ [ev])).levels s
  accepted_le : ∀ x ∈ acc, x.sequence ≤ ev.sequence
  complete : p.stats.staleResets = 0 → (∀ x ∈ pre ++ seg, x ∈ acc) → pre = []

/-- Nothing was accepted yet. -/
structure Fresh (acc : List MarketEvent) (p : Pipeline F) : Prop where
  accepted : acc = []
  lastSequence : p.lastSequence = none
  lastEventTs : p.lastEventTs = none
  levels : ∀ s, p.book.levels s = []

/-- **The first accepted event** starts a piece. -/
theorem Fresh.accept (h : Fresh acc p) (host : Host F) (hes : Consecutive es) (hev : ev ∈ es) :
    ∃ pre post, Delivered symbol es (acc ++ [ev]) (p.process host ev) pre [] ev post := by
  have hd : p.outOfOrder ev = false := by
    unfold outOfOrder
    rw [h.lastSequence]
    rfl
  have hbook : p.bookFor ev = p.book := by
    unfold bookFor gap stale
    rw [h.lastSequence, h.lastEventTs]
    rfl
  obtain ⟨pre, post, hsplit⟩ := List.append_of_mem hev
  rw [hsplit] at hes
  refine ⟨pre, post, ?_⟩
  exact
    { stream := by rw [List.append_nil]; exact hsplit
      last := (heard_process host hd).lastSequence
      levels := by
        intro s
        rw [(process_book host hd).1, hbook]
        refine OrderBook.levels_apply_congr (fun t => ?_) ev s
        rw [h.levels]
        cases t <;> rfl
      accepted_le := by
        intro x hx
        rw [h.accepted, List.nil_append, List.mem_singleton] at hx
        exact hx ▸ le_refl _
      complete := by
        intro _ hall
        refine List.eq_nil_iff_forall_not_mem.mpr fun x hx => ?_
        have hx' := hall x (by rw [List.append_nil]; exact hx)
        rw [h.accepted, List.nil_append, List.mem_singleton] at hx'
        exact absurd (hes.split.1 x hx) (by rw [hx']; exact lt_irrefl _) }

/-- **A further accepted event** extends the piece or, after a resync, starts a new one. -/
theorem Delivered.accept {ev' : MarketEvent} (h : Delivered symbol es acc p pre seg ev post)
    (host : Host F) (hes : Consecutive es) (hev : ev' ∈ es) (hd : p.outOfOrder ev' = false) :
    ∃ pre' seg' post',
      Delivered symbol es (acc ++ [ev']) (p.process host ev') pre' seg' ev' post' := by
  have hlt : ev.sequence < ev'.sequence := by
    unfold outOfOrder at hd
    rw [h.last] at hd
    simpa using hd
  have hstream := h.stream
  rw [hstream] at hes
  obtain ⟨hbefore, hafter⟩ := hes.split
  -- the event stands behind the last accepted one
  have hmem : ev' ∈ post := by
    rw [hstream, List.mem_append, List.mem_cons] at hev
    rcases hev with hev | rfl | hev
    · exact absurd (hbefore ev' hev) (not_lt.mpr hlt.le)
    · exact absurd hlt (lt_irrefl _)
    · exact hev
  obtain ⟨mid, post', rfl⟩ := List.append_of_mem hmem
  have hes' : Consecutive ((pre ++ seg ++ ev :: mid) ++ ev' :: post') := by
    rw [List.append_assoc, List.cons_append]
    exact hes
  have hacc : ∀ x ∈ acc ++ [ev'], x.sequence ≤ ev'.sequence := by
    intro x hx
    rcases List.mem_append.mp hx with hx | hx
    · exact (h.accepted_le x hx).trans hlt.le
    · rw [List.mem_singleton.mp hx]
  have hlast := (heard_process host hd).lastSequence
  obtain ⟨hbook, hresets⟩ := process_book host hd
  have hgap : p.gap ev' = true ↔ mid ≠ [] := by
    rw [Ne, ← hes.next_iff]
    unfold gap
    rw [h.last]
    simp
  by_cases hreset : (p.gap ev' || p.stale ev') = true
  · refine ⟨pre ++ seg ++ ev :: mid, [], post', ?_⟩
    exact
      { stream := by rw [hstream]; simp
        last := hlast
        levels := by
          intro s
          rw [hbook, bookFor, if_pos hreset]
          exact OrderBook.levels_clear_apply p.book symbol ev' s
        accepted_le := hacc
        complete := by
          intro hzero hall
          have hstale : ¬ p.stale ev' = true := by
            intro hs
            rw [hresets, staleResetsFor, if_pos hs] at hzero
            cases hzero
          have hmid : mid ≠ [] := hgap.mp ((Bool.or_eq_true_iff.mp hreset).resolve_right hstale)
          -- what stands between the two events was not accepted
          obtain ⟨m, hm⟩ := List.exists_mem_of_ne_nil mid hmid
          have hm₁ : ev.sequence < m.sequence := hafter m (List.mem_append_left _ hm)
          have hm₂ : m.sequence < ev'.sequence := hes'.split.1 m (by simp [hm])
          rcases List.mem_append.mp (hall m (by simp [hm])) with hma | hma
          · exact absurd (h.accepted_le m hma) (not_le.mpr hm₁)
          · rw [List.mem_singleton.mp hma] at hm₂
            exact absurd hm₂ (lt_irrefl _) }
  · have hstale : ¬ p.stale ev' = true := fun hs => hreset (by rw [hs, Bool.or_true])
    have hmid : mid = [] := by
      by_contra hne
      exact hreset (by rw [hgap.mpr hne, Bool.true_or])
    subst hmid
    refine ⟨pre, seg ++ [ev], post', ?_⟩
    exact
      { stream := by rw [hstream]; simp
        last := hlast
        levels := by
          intro s
          rw [hbook, bookFor, if_neg hreset, OrderBook.after, run_concat]
          exact OrderBook.levels_apply_congr h.levels ev' s
        accepted_le := hacc
        complete := by
          intro hzero hall
          rw [hresets, staleResetsFor, if_neg hstale] at hzero
          refine h.complete hzero fun x hx => ?_
          have hx' := hall x (by rw [← List.append_assoc]; exact List.mem_append_left _ hx)
          refine (List.mem_append.mp hx').resolve_right fun hx'' => ?_
          have hlt' := (hbefore x hx).trans hlt
          rw [List.mem_singleton.mp hx''] at hlt'
          exact lt_irrefl _ hlt' }

/-- Either nothing was accepted yet, or the book shows a piece of the stream. -/
def Synced (symbol : Symbol) (es acc : List MarketEvent) (p : Pipeline F) : Prop :=
  Fresh acc p ∨ ∃ pre seg ev post, Delivered symbol es acc p pre seg ev post

/-- **Accepting an event of the stream.** -/
theorem Synced.accept (h : Synced symbol es acc p) (host : Host F) (hes : Consecutive es)
    (hev : ev ∈ es) (hd : p.outOfOrder ev = false) :
    ∃ pre seg post, Delivered symbol es (acc ++ [ev]) (p.process host ev) pre seg ev post := by
  rcases h with h | ⟨pre, seg, last, post, h⟩
  · obtain ⟨pre, post, h'⟩ := h.accept host hes hev
    exact ⟨pre, [], post, h'⟩
  · exact h.accept host hes hev hd

theorem Synced.congr {q : Pipeline F} (h : Synced symbol es acc p) (hq : SameTrackers p q) :
    Synced symbol es acc q := by
  rcases h with h | ⟨pre, seg, ev, post, h⟩
  · exact .inl
      { accepted := h.accepted
        lastSequence := hq.lastSequence.trans h.lastSequence
        lastEventTs := hq.lastEventTs.trans h.lastEventTs
        levels := by rw [hq.book]; exact h.levels }
  · exact .inr ⟨pre, seg, ev, post,
      { stream := h.stream
        last := hq.lastSequence.trans h.last
        levels := by rw [hq.book]; exact h.levels
        accepted_le := h.accepted_le
        complete := by rw [hq.staleResets]; exact h.complete }⟩

/-! ## Runs -/

/-- **Run lemma.** -/
theorem after_synced (host : Host F) (symbol : Symbol) (cfg : PipelineConfig F)
    (hes : Consecutive es) {calls : List Call} (hcalls : ∀ ev, .process ev ∈ calls → ev ∈ es) :
    Synced symbol es ((new symbol cfg).accepted host calls) (after host symbol cfg calls) := by
  induction calls using List.reverseRecOn with
  | nil => exact .inl ⟨rfl, rfl, rfl, fun s => by cases s <;> rfl⟩
  | append_singleton calls c ih =>
    have ih' := ih fun ev hev => hcalls ev (List.mem_append_left _ hev)
    rw [accepted_append, after, run_concat]
    change Synced symbol es ((new symbol cfg).accepted host calls) (run (call host) _ calls) at ih'
    generalize run (call host) (new symbol cfg) calls = p at ih' ⊢
    cases c with
    | process ev =>
      by_cases hd : p.outOfOrder ev = true
      · rw [accepted, if_pos hd, accepted, List.append_nil]
        exact ih'.congr (.of_dropped hd)
      · have hev : ev ∈ es := hcalls ev (by simp)
        obtain ⟨pre, seg, post, h⟩ := ih'.accept host hes hev (Bool.eq_false_iff.mpr hd)
        rw [accepted, if_neg hd, accepted]
        exact .inr ⟨pre, seg, ev, post, h⟩
    | onClock now =>
      rw [accepted, accepted, List.append_nil]
      exact ih'.congr (.onClock p now)

/-- **No phantom liquidity.** Whatever of the stream the pipeline was fed before, right after it
accepts an event its book shows only levels that the stream up to that event shows; and it shows
all of them if no event was missed and there was no stale reset. -/
theorem no_phantom_liquidity (host : Host F) (symbol : Symbol) (cfg : PipelineConfig F)
    {es : List MarketEvent} (hes : Consecutive es) {calls : List Call}
    (hcalls : ∀ ev, .process ev ∈ calls → ev ∈ es) {before post : List MarketEvent}
    {ev : MarketEvent} (hk : es = before ++ ev :: post)
    (hacc : (after host symbol cfg calls).outOfOrder ev = false) :
    let p := after host symbol cfg (calls ++ [.process ev])
    let ideal := OrderBook.after symbol (before ++ [ev])
    (∀ s, ∀ lvl ∈ p.book.levels s, lvl ∈ ideal.levels s) ∧
    ((∀ x ∈ before ++ [ev], x ∈ (new symbol cfg).accepted host (calls ++ [.process ev])) →
      p.stats.staleResets = 0 → ∀ s, p.book.levels s = ideal.levels s) := by
  intro p ideal
  have hp : p = (after host symbol cfg calls).process host ev := run_concat _ _ _ _
  have hev : ev ∈ es := by
    rw [hk]
    simp
  have haccepted : (new symbol cfg).accepted host (calls ++ [.process ev]) =
      (new symbol cfg).accepted host calls ++ [ev] := by
    have hd : ¬ (run (call host) (new symbol cfg) calls).outOfOrder ev = true :=
      Bool.eq_false_iff.mp hacc
    rw [accepted_append, accepted, if_neg hd, accepted]
  obtain ⟨pre, seg, post', h⟩ := (after_synced host symbol cfg hes hcalls).accept host hes hev hacc
  rw [← hp] at h
  have hbefore : before = pre ++ seg := hes.split_unique hk h.stream
  constructor
  · intro s lvl hlvl
    rw [h.levels] at hlvl
    show lvl ∈ (OrderBook.after symbol (before ++ [ev])).levels s
    rw [hbefore, List.append_assoc]
    exact OrderBook.mem_levels_of_suffix hlvl pre
  · intro hall hzero s
    rw [haccepted] at hall
    have hpre : pre = [] := by
      refine h.complete hzero fun x hx => hall x ?_
      rw [hbefore]
      exact List.mem_append_left _ hx
    rw [h.levels]
    show _ = (OrderBook.after symbol (before ++ [ev])).levels s
    rw [hbefore, hpre, List.nil_append]

/-- The `n`-th event of a stream of bids at one price. -/
def streamBid (n : ℕ) : MarketEvent :=
  .makeQuote n n (Symbol.ofView []) .buy (.fromTicks 1000000) n

/-- The first event arrives twice, the second one never. -/
theorem no_phantom_liquidity_gap :
    let p := after (lowHost ℚ) (Symbol.ofView []) {}
      ([.process (streamBid 1), .process (streamBid 1)] ++ [.process (streamBid 3)])
    ∀ s, ∀ lvl ∈ p.book.levels s, lvl ∈ (OrderBook.after (Symbol.ofView [])
      ([streamBid 1, streamBid 2] ++ [streamBid 3])).levels s :=
  (no_phantom_liquidity (lowHost ℚ) (Symbol.ofView []) {}
    (show Consecutive [streamBid 1, streamBid 2, streamBid 3] by decide) (by simp)
    (show _ = [streamBid 1, streamBid 2] ++ streamBid 3 :: [] from rfl) (by decide +kernel)).1

end Pipeline

end Lob
