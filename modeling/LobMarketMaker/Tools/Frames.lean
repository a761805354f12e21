import LobMarketMaker.Tools.SyntheticBook
import Mathlib.Tactic.Ring
import Mathlib.Tactic.SplitIfs

/-!
# What a call leaves alone

* `SameFrame`, `Carries`: the clock, the reference and the tick that a call carries along;
  `next_carries`: the event of a call has the stamps of the generator it leaves;
* `Stamped`, `next_stamped`: the next sequence number, and a time stamp within two milliseconds;
* `nextRef`, `nextRef_cases`: a call moves the reference by one tick, or not at all;
* `InRange`, `inRange_of_start`: the reference keeps away from the ends of `int64_t`.
-/

set_option autoImplicit false

namespace Lob

open Foundation

namespace SyntheticBookGenerator

/-- The clock, the reference and the tick are the same. -/
structure SameFrame (g g' : SyntheticBookGenerator) : Prop where
  seq : g'.seq = g.seq
  t : g'.t = g.t
  ref : g'.ref = g.ref
  tick : g'.tick = g.tick

theorem SameFrame.trans {g g' g'' : SyntheticBookGenerator} (h : SameFrame g g')
    (h' : SameFrame g' g'') : SameFrame g g'' :=
  ⟨h'.seq.trans h.seq, h'.t.trans h.t, h'.ref.trans h.ref, h'.tick.trans h.tick⟩

/-- The event carries the clock of the generator that it leaves behind. -/
structure Carries (g : SyntheticBookGenerator) (r : MarketEvent × SyntheticBookGenerator) :
    Prop where
  frame : SameFrame g r.2
  sequence : r.1.sequence = g.seq
  timestamp : r.1.timestamp = g.t

section Frames

variable {F : Type} [Double F] (draws : Draws F) (g : SyntheticBookGenerator)

theorem sameFrame_withdraw (s : BookSide) (px : ℤ) : SameFrame g (g.withdraw s px) := by
  cases s <;> exact ⟨rfl, rfl, rfl, rfl⟩

theorem sameFrame_withdraws (s : BookSide) (pxs : List ℤ) :
    SameFrame g (pxs.foldl (fun g px => g.withdraw s px) g) := by
  induction pxs generalizing g with
  | nil => exact ⟨rfl, rfl, rfl, rfl⟩
  | cons px pxs ih => exact (sameFrame_withdraw g s px).trans (ih _)

theorem sameFrame_queueInvalidLevels : SameFrame g g.queueInvalidLevels :=
  (sameFrame_withdraws g .bid _).trans (sameFrame_withdraws _ .ask _)

theorem sameFrame_sweepLoop (room sweep : ℕ) : SameFrame g (sweepLoop draws room sweep g).2 := by
  induction room generalizing sweep g with
  | zero => exact ⟨rfl, rfl, rfl, rfl⟩
  | succ room ih =>
    unfold sweepLoop
    dsimp only [unit]
    split_ifs
    · have h := ih { g with rng := g.rng + 1 } (sweep + 1)
      exact ⟨h.seq, h.t, h.ref, h.tick⟩
    · exact ⟨rfl, rfl, rfl, rfl⟩

/-- A move of the reference leaves the clock and the tick alone. -/
structure Moves (g g' : SyntheticBookGenerator) : Prop where
  seq : g'.seq = g.seq
  t : g'.t = g.t
  tick : g'.tick = g.tick
  ref : g'.ref = g.ref ∨ ∃ d, (d = 1 ∨ d = -1) ∧ g'.ref = wrapI64 (g.ref + d * g.tick)

theorem moves_moveReference : Moves g (g.moveReference draws) := by
  unfold moveReference
  dsimp only [unit]
  split_ifs
  · have h := sameFrame_queueInvalidLevels
      { g with rng := g.rng + 1 + 1, ref := wrapI64 (g.ref + -1 * g.tick) }
    exact ⟨h.seq, h.t, h.tick, .inr ⟨-1, .inr rfl, h.ref⟩⟩
  · have h := sameFrame_queueInvalidLevels
      { g with rng := g.rng + 1 + 1, ref := wrapI64 (g.ref + 1 * g.tick) }
    exact ⟨h.seq, h.t, h.tick, .inr ⟨1, .inl rfl, h.ref⟩⟩
  · exact ⟨rfl, rfl, rfl, .inl rfl⟩
  · exact ⟨rfl, rfl, rfl, .inl rfl⟩

/-! ## The stamps of an event -/

theorem carries_makeQuote : Carries g (g.makeQuote draws) := by
  unfold makeQuote
  dsimp only [unit, qty, uniformInt]
  generalize (if draws.unit g.rng < ofInt 1 / ofInt 2 then BookSide.bid else BookSide.ask) = side
  cases side <;> exact ⟨⟨rfl, rfl, rfl, rfl⟩, rfl, rfl⟩

/-- An attempt either carries the clock or leaves it alone. -/
def Tries (g : SyntheticBookGenerator) (r : Option MarketEvent × SyntheticBookGenerator) : Prop :=
  SameFrame g r.2 ∧ ∀ ev, r.1 = some ev → ev.sequence = g.seq ∧ ev.timestamp = g.t

theorem tries_tryTrade : Tries g (g.tryTrade draws) := by
  unfold tryTrade
  dsimp only [unit, qty, uniformInt]
  generalize (if draws.unit g.rng < ofInt 1 / ofInt 2 then BookSide.ask else BookSide.bid) = side
  have hloop := sameFrame_sweepLoop draws { g with rng := g.rng + 1 }
    ((g.levels side).ticks.length - 1) 1
  have hsame : ∀ s, ({ g with rng := g.rng + 1 } : SyntheticBookGenerator).levels s = g.levels s :=
    fun _ => rfl
  rw [hsame]
  split_ifs
  · exact ⟨⟨rfl, rfl, rfl, rfl⟩, fun _ => nofun⟩
  · generalize sweepLoop draws ((g.levels side).ticks.length - 1) 1 { g with rng := g.rng + 1 } = r
      at hloop
    have hsweep := sameFrame_withdraws r.2 side ((r.2.bestFirst side).take r.1).dropLast
    have hunit : SameFrame g { g with rng := g.rng + 1 } := ⟨rfl, rfl, rfl, rfl⟩
    have hframe := hunit.trans (hloop.trans hsweep)
    refine ⟨⟨hframe.seq, hframe.t, hframe.ref, hframe.tick⟩, fun ev hev => ?_⟩
    rw [← Option.some.inj hev]
    exact ⟨hframe.seq, hframe.t⟩

theorem tries_tryCancel : Tries g (g.tryCancel draws) := by
  unfold tryCancel
  dsimp only [unit, uniformInt]
  generalize (if draws.unit g.rng < ofInt 1 / ofInt 2 then BookSide.bid else BookSide.ask) = side
  split_ifs
  · exact ⟨⟨rfl, rfl, rfl, rfl⟩, fun _ => nofun⟩
  · refine ⟨?_, fun ev hev => ?_⟩
    · cases side <;> exact ⟨rfl, rfl, rfl, rfl⟩
    · rw [← Option.some.inj hev]
      cases side <;> exact ⟨rfl, rfl⟩

/-- A failed attempt is followed by a quote. -/
theorem carries_orQuote {h : SyntheticBookGenerator} (hframe : SameFrame g h)
    (r : Option MarketEvent × SyntheticBookGenerator) : Tries h r →
    Carries g (match r with
      | (some ev, g) => (ev, g)
      | (none, g) => g.makeQuote draws) := by
  rintro ⟨hsame, hev⟩
  obtain ⟨o, g'⟩ := r
  have hg' : SameFrame g g' := hframe.trans hsame
  cases o with
  | some ev =>
    obtain ⟨hseq, ht⟩ := hev ev rfl
    exact ⟨hg', hseq.trans hframe.seq, ht.trans hframe.t⟩
  | none =>
    have hquote := carries_makeQuote draws g'
    exact ⟨hg'.trans hquote.frame, hquote.sequence.trans hg'.seq, hquote.timestamp.trans hg'.t⟩

theorem carries_activity : Carries g (g.activity draws) := by
  have hunit : SameFrame g { g with rng := g.rng + 1 } := ⟨rfl, rfl, rfl, rfl⟩
  unfold activity
  dsimp only [unit]
  split_ifs
  · exact ⟨hunit, rfl, rfl⟩
  · exact carries_orQuote draws g hunit _ (tries_tryTrade draws _)
  · exact carries_orQuote draws g hunit _ (tries_tryCancel draws _)
  · exact carries_orQuote draws g hunit (none, { g with rng := g.rng + 1 })
      ⟨⟨rfl, rfl, rfl, rfl⟩, fun _ => nofun⟩

/-- **Every call** carries along what its clock and its move of the reference have set. -/
theorem next_carries : Carries ((g.tickClock draws).moveReference draws) (g.next draws) := by
  unfold next
  dsimp only
  generalize (g.tickClock draws).moveReference draws = g₁
  cases hp : g₁.pending with
  | cons x pending => exact ⟨⟨rfl, rfl, rfl, rfl⟩, rfl, rfl⟩
  | nil => exact carries_activity draws g₁

/-- A call gives its event the next sequence number and a time stamp within two milliseconds. -/
structure Stamped (g : SyntheticBookGenerator) (ev : MarketEvent) (g' : SyntheticBookGenerator) :
    Prop where
  sequence : ev.sequence = g.seq + 1
  timestamp : ∃ ns, 50000 ≤ ns ∧ ns ≤ 2000000 ∧ ev.timestamp = wrapI64 (g.t + ns)
  seq : g'.seq = ev.sequence
  t : g'.t = ev.timestamp

theorem next_stamped : Stamped g (g.next draws).1 (g.next draws).2 := by
  obtain ⟨hlo, hhi⟩ := draws.uniformInt_mem g.rng 50 2000 (by decide)
  obtain ⟨hframe, hseq, ht⟩ := next_carries draws g
  have hmove := moves_moveReference draws (g.tickClock draws)
  refine ⟨hseq.trans hmove.seq, ⟨draws.uniformInt g.rng 50 2000 * 1000, by omega, by omega,
    ht.trans hmove.t⟩, hframe.seq.trans hseq.symm, hframe.t.trans ht.symm⟩

theorem emit_seq (n : ℕ) : (g.emit draws n).2.seq = g.seq + n := by
  induction n with
  | zero => rfl
  | succ n ih =>
    have h := next_stamped draws (g.emit draws n).2
    exact (h.seq.trans h.sequence).trans (by rw [ih, Nat.add_assoc])

/-! ## The reference -/

/-- The reference around which the next call quotes. -/
def nextRef : ℤ := ((g.tickClock draws).moveReference draws).ref

theorem next_ref : (g.next draws).2.ref = g.nextRef draws := (next_carries draws g).frame.ref

theorem next_tick : (g.next draws).2.tick = g.tick :=
  (next_carries draws g).frame.tick.trans (moves_moveReference draws (g.tickClock draws)).tick

theorem nextRef_cases : g.nextRef draws = g.ref ∨
    ∃ d, (d = 1 ∨ d = -1) ∧ g.nextRef draws = wrapI64 (g.ref + d * g.tick) :=
  (moves_moveReference draws (g.tickClock draws)).ref

theorem emit_tick (n : ℕ) : (g.emit draws n).2.tick = g.tick := by
  induction n with
  | zero => rfl
  | succ n ih => exact (next_tick draws _).trans ih

/-- Ten ticks on both sides of the reference are in the range of `int64_t`. -/
def InRange (ref tick : ℤ) : Prop :=
  InI64 (ref - kLevelsPerSide * tick) ∧ InI64 (ref + kLevelsPerSide * tick)

/-- **A start far enough from the ends of the range** leaves room for `n` moves and ten ticks. -/
theorem inRange_of_start {n : ℕ} (htick : 1 ≤ g.tick) (hlo : -2 ^ 63 ≤ g.ref - (n + 11) * g.tick)
    (hhi : g.ref + (n + 11) * g.tick < 2 ^ 63) {m : ℕ} (hm : m ≤ n) :
    InRange ((g.emit draws m).2.nextRef draws) g.tick := by
  have hten : kLevelsPerSide = 10 := rfl
  -- the reference has moved by at most `k` ticks before call `k + 1`, and by one more in it
  have hstep : ∀ k ≤ n, |(g.emit draws k).2.ref - g.ref| ≤ k * g.tick →
      |(g.emit draws k).2.nextRef draws - g.ref| ≤ (k + 1) * g.tick := by
    intro k hk hnear
    have hroom : ((k : ℤ) + 11) * g.tick ≤ (n + 11) * g.tick :=
      mul_le_mul_of_nonneg_right (by omega) (by omega)
    obtain ⟨h₁, h₂⟩ := abs_le.mp hnear
    rw [add_mul, add_mul] at hroom
    rw [add_mul] at hlo hhi
    rcases nextRef_cases draws (g.emit draws k).2 with h | ⟨d, hd, h⟩
    · rw [h, add_mul]
      exact hnear.trans (by omega)
    · rw [emit_tick] at h
      rw [h, add_mul, abs_le]
      rcases hd with rfl | rfl
      · rw [wrapI64_of_inI64 ⟨by omega, by omega⟩]
        omega
      · rw [wrapI64_of_inI64 ⟨by omega, by omega⟩]
        omega
  have hnear : ∀ k ≤ n, |(g.emit draws k).2.ref - g.ref| ≤ k * g.tick := by
    intro k
    induction k with
    | zero => intro _; simp [emit]
    | succ k ih =>
      intro hk
      have h := hstep k (by omega) (ih (by omega))
      rw [← next_ref] at h
      push_cast
      exact h
  have hroom : ((m : ℤ) + 11) * g.tick ≤ (n + 11) * g.tick :=
    mul_le_mul_of_nonneg_right (by omega) (by omega)
  obtain ⟨h₁, h₂⟩ := abs_le.mp (hstep m hm (hnear m hm))
  rw [add_mul, add_mul] at hroom
  rw [add_mul] at h₁ h₂ hlo hhi
  unfold InRange
  rw [hten]
  exact ⟨⟨by omega, by omega⟩, by omega, by omega⟩

end Frames

end SyntheticBookGenerator

end Lob
