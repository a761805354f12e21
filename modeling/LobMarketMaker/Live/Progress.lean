import LobMarketMaker.Live.Accounts

/-!
# Progress of the live engine

Neither thread ever waits for the other while the feed is on, and the main thread comes to an end
once the client has stopped.

* `handingRank`, `drainRank`: the steps that are still to be made at most;
* **`feed_never_blocks`**: seven steps of the callback thread for each event of a batch;
* **`shutdown_drains`**: seven steps of the main thread for each event that is left in the ring.
-/

set_option autoImplicit false

namespace Lob

open Foundation

/-- The step is the callback thread's. -/
def LiveAction.isCallback : LiveAction → Bool
  | .callback _ => true
  | .main _ _ => false

/-- The step is the main thread's. -/
def LiveAction.isMain : LiveAction → Bool
  | .callback _ => false
  | .main _ _ => true

namespace LiveEngine

variable {F : Type} [Double F] {parse : List UInt8 → Option (Json F)} {host : Host F}
  {symbol : List UInt8} {spread : F} {cfg : PipelineConfig F} {e : LiveEngine F}

/-! ## The callback thread -/

/-- The steps of the callback thread until `push` has returned for the first `n` events. -/
def handingRank (n : ℕ) (e : LiveEngine F) : ℕ :=
  if n ≤ e.handed.length then 0
  else
    7 * (n - e.handed.length - 1) +
      match e.callback with
      | .pushing _ _ => e.ring.pushLedger.left
      | _ => 7

/-- What the main thread leaves alone. -/
structure SameFeedThread (e e' : LiveEngine F) : Prop where
  callback : e'.callback = e.callback
  handed : e'.handed = e.handed
  messages : e'.messages = e.messages
  pushLedger : e'.ring.pushLedger = e.ring.pushLedger

theorem sameFeedThread_popStep (e : LiveEngine F) (found : MarketEvent → MainPc) (empty : MainPc) :
    SameFeedThread e (e.popStep found empty) := by
  have h := (SpscRingBuffer.popStep_sameProducer ringCapacity id e.ring).pushLedger_eq
  unfold popStep
  dsimp only
  split <;> exact ⟨rfl, rfl, rfl, h⟩

theorem sameFeedThread_mainStep (host : Host F) (e : LiveEngine F) (go : Bool) (now : Timestamp) :
    SameFeedThread e (e.mainStep host go now) := by
  unfold mainStep
  cases e.main with
  | loop => exact ⟨rfl, rfl, rfl, rfl⟩
  | poll => exact sameFeedThread_popStep e _ _
  | handle ev => exact ⟨rfl, rfl, rfl, rfl⟩
  | clock => exact ⟨rfl, rfl, rfl, rfl⟩
  | stop => dsimp only; split_ifs <;> exact ⟨rfl, rfl, rfl, rfl⟩
  | drain => exact sameFeedThread_popStep e _ _
  | drainHandle ev => exact ⟨rfl, rfl, rfl, rfl⟩
  | finished => exact ⟨rfl, rfl, rfl, rfl⟩

/-- So many events have been handed over or stand in the batch. -/
def Offered (n : ℕ) (e : LiveEngine F) : Prop := n ≤ e.handed.length + e.callback.left.length

theorem pushLedger_of_idle {s : SpscRingBuffer MarketEvent} (h : s.producer = .idle) :
    s.pushLedger.left = 6 := by
  unfold SpscRingBuffer.pushLedger
  rw [h]

theorem handingRank_next {n : ℕ} {rest : List MarketEvent} (hc : e.callback = .next rest)
    (hring : e.ring.producer = .idle) (hn : Offered n e) :
    handingRank n e ≤ 7 * (n - e.handed.length) - 1 := by
  unfold handingRank
  unfold Offered at hn
  rw [hc, CallbackPc.left_next] at hn
  split_ifs with hle
  · exact Nat.zero_le _
  · cases rest with
    | nil => exact absurd hn hle
    | cons ev rest =>
      rw [hc, CallbackPc.next]
      dsimp only
      rw [pushLedger_of_idle hring]
      omega

/-- **Step lemma**, for the callback thread. -/
theorem Consistent.handing (h : Consistent parse host symbol spread cfg e) {n : ℕ}
    (hn : Offered n e) (msg : WebSocketMessage) :
    Offered n (e.callbackStep parse msg) ∧
      handingRank n (e.callbackStep parse msg) ≤ handingRank n e - 1 := by
  cases hc : e.callback with
  | waiting =>
    have hle : n ≤ e.handed.length := by
      unfold Offered at hn
      rwa [hc] at hn
    have hhanded : (e.callbackStep parse msg).handed = e.handed := by
      unfold LiveEngine.callbackStep
      rw [hc]
      dsimp only
      split_ifs <;> rfl
    unfold Offered handingRank
    rw [hhanded, if_pos hle]
    exact ⟨Nat.le_add_right_of_le hle, Nat.zero_le _⟩
  | counting rest =>
    have hstep : e.callbackStep parse msg =
        { e with dropped := e.dropped + 1, callback := .next rest } := by
      unfold LiveEngine.callbackStep
      rw [hc]
    have hnone := h.pushing_eq_none (by rw [hc]; exact fun _ _ => nofun)
    have hoffered : Offered n (e.callbackStep parse msg) := by
      unfold Offered at hn ⊢
      rw [hstep, CallbackPc.left_next]
      rwa [hc] at hn
    refine ⟨hoffered, ?_⟩
    have hrank := handingRank_next (by rw [hstep]) (by
      rw [hstep]
      exact SpscRingBuffer.producer_idle_iff.mpr hnone) hoffered
    have hhanded : (e.callbackStep parse msg).handed = e.handed := by rw [hstep]
    rw [hhanded] at hrank
    have hbefore : handingRank n e = if n ≤ e.handed.length then 0
        else 7 * (n - e.handed.length - 1) + 7 := by
      unfold handingRank
      rw [hc]
    rw [hbefore]
    split_ifs <;> omega
  | pushing ev rest =>
    have harg := h.pushing_getD hc
    have heffect := SpscRingBuffer.pushStep_effect ringCapacity ev e.ring
    have hpos := (SpscRingBuffer.pushLedger_bounded e.ring).left_pos
    have hbefore : handingRank n e = if n ≤ e.handed.length then 0
        else 7 * (n - e.handed.length - 1) + e.ring.pushLedger.left := by
      unfold handingRank
      rw [hc]
    unfold Offered at hn
    rw [hc, CallbackPc.left, List.length_cons] at hn
    rw [harg] at heffect
    rw [hbefore]
    cases hr : e.ring.pushReturns with
    | none =>
      have hleft := SpscRingBuffer.pushStep_left ringCapacity ev hr
      have hstep : e.callbackStep parse msg =
          { e with ring := e.ring.pushStep ringCapacity ev } := by
        unfold LiveEngine.callbackStep
        rw [hc]
        dsimp only
        rw [hr]
      have hafter : handingRank n (e.callbackStep parse msg) = if n ≤ e.handed.length then 0
          else 7 * (n - e.handed.length - 1) +
            (e.ring.pushStep ringCapacity ev).pushLedger.left := by
        rw [hstep]
        unfold handingRank
        dsimp only
        rw [hc]
      rw [hafter]
      refine ⟨?_, by split_ifs <;> omega⟩
      unfold Offered
      rw [hstep]
      dsimp only
      rw [hc, CallbackPc.left, List.length_cons]
      exact hn
    | some accepted =>
      rw [hr] at heffect
      have hidle : (e.ring.pushStep ringCapacity ev).producer = .idle := by
        cases accepted with
        | true => exact heffect.1
        | false => exact heffect.1
      have hlen : (e.handed ++ [(ev, accepted)]).length = e.handed.length + 1 := List.length_append
      cases accepted with
      | true =>
        have hstep : e.callbackStep parse msg =
            { e with
              ring := e.ring.pushStep ringCapacity ev
              callback := .next rest
              handed := e.handed ++ [(ev, true)] } := by
          unfold LiveEngine.callbackStep
          rw [hc]
          dsimp only
          rw [hr]
        have hoffered : Offered n (e.callbackStep parse msg) := by
          unfold Offered
          rw [hstep, CallbackPc.left_next, hlen]
          omega
        have hrank := handingRank_next (by rw [hstep]) (by rw [hstep]; exact hidle) hoffered
        have hhanded : (e.callbackStep parse msg).handed.length = e.handed.length + 1 := by
          rw [hstep, hlen]
        rw [hhanded] at hrank
        refine ⟨hoffered, ?_⟩
        split_ifs <;> omega
      | false =>
        have hstep : e.callbackStep parse msg =
            { e with
              ring := e.ring.pushStep ringCapacity ev
              callback := .counting rest
              handed := e.handed ++ [(ev, false)] } := by
          unfold LiveEngine.callbackStep
          rw [hc]
          dsimp only
          rw [hr]
        rw [hstep]
        unfold Offered handingRank
        dsimp only
        rw [hlen, CallbackPc.left]
        refine ⟨by omega, ?_⟩
        split_ifs <;> omega

theorem SameFeedThread.handing {e' : LiveEngine F} (h : SameFeedThread e e') {n : ℕ} :
    (Offered n e → Offered n e') ∧ handingRank n e' = handingRank n e := by
  unfold Offered handingRank
  rw [h.callback, h.handed, h.pushLedger]
  exact ⟨id, rfl⟩

theorem Consistent.emitted_prefix (h : Consistent parse host symbol spread cfg e)
    {e' : LiveEngine F} (h' : Consistent parse host symbol spread cfg e')
    (hmsgs : e.messages <+: e'.messages) (hn : e.emitted.length ≤ e'.handed.length) :
    e.emitted <+: e'.handed.map Prod.fst := by
  obtain ⟨more, hmore⟩ := hmsgs
  have hsplit := TradeTapeAdapter.onTrades_append (.new spread)
    (e.messages.flatMap (FinnhubClient.tradesOf parse))
    (more.flatMap (FinnhubClient.tradesOf parse))
  rw [← List.flatMap_append, hmore] at hsplit
  have hpre : e.emitted <+: e'.emitted := by
    rw [← h.emitted_eq, ← h'.emitted_eq, hsplit]
    exact List.prefix_append _ _
  refine List.prefix_of_prefix_length_le hpre (List.prefix_append _ _) ?_
  rw [List.length_map]
  exact hn

theorem messages_extend (e : LiveEngine F) (a : LiveAction) :
    e.messages <+: (liveStep parse host e a).messages := by
  cases a with
  | main go now =>
    have hsame : (e.mainStep host go now).messages = e.messages :=
      (sameFeedThread_mainStep host e go now).messages
    exact hsame ▸ List.prefix_rfl
  | callback msg =>
    unfold liveStep LiveEngine.callbackStep
    dsimp only
    split
    · split_ifs
      · exact List.prefix_rfl
      · exact List.prefix_append _ _
    · split <;> exact List.prefix_rfl
    · exact List.prefix_rfl

theorem live_append (before after : List LiveAction) :
    live parse host symbol spread cfg (before ++ after) =
      run (liveStep parse host) (live parse host symbol spread cfg before) after :=
  run_append _ _ _ _

/-- **The feed never blocks.** From any reachable state and in any interleaving, whatever the main
thread does: once the callback thread has made seven steps for each event of its batch, `push` has
returned for all of them, in the tape's order. -/
theorem feed_never_blocks (parse : List UInt8 → Option (Json F)) (host : Host F)
    (symbol : List UInt8) (spread : F) (cfg : PipelineConfig F) (before after : List LiveAction) :
    let e := live parse host symbol spread cfg before
    let e' := live parse host symbol spread cfg (before ++ after)
    7 * e.callback.left.length ≤ after.countP LiveAction.isCallback →
      e.emitted <+: e'.handed.map Prod.fst := by
  intro e e' hsteps
  have h : Consistent parse host symbol spread cfg e :=
    consistent_live parse host symbol spread cfg before
  have he' : e' = run (liveStep parse host) e after := live_append before after
  have hmsgs : e.messages <+: e'.messages := by
    rw [he']
    exact run_invariant _ (P := fun s : LiveEngine F => e.messages <+: s.messages)
      (fun s a hs => hs.trans (messages_extend s a)) List.prefix_rfl after
  have hlen : e.emitted.length = e.handed.length + e.callback.left.length := by
    rw [emitted, List.length_append, List.length_map]
  have hrank := rank_le_of_steps (liveStep parse host) LiveAction.isCallback
    (handingRank e.emitted.length)
    (I := fun s => Consistent parse host symbol spread cfg s ∧ Offered e.emitted.length s)
    (fun s a hs => by
      cases a with
      | callback msg => exact ⟨hs.1.callbackStep msg, (hs.1.handing hs.2 msg).1⟩
      | main go now =>
        exact ⟨hs.1.mainStep go now, (sameFeedThread_mainStep host s go now).handing.1 hs.2⟩)
    (fun s a hs => by
      cases a with
      | callback msg => exact (hs.1.handing hs.2 msg).2
      | main go now => exact le_of_eq (sameFeedThread_mainStep host s go now).handing.2)
    (s := e) ⟨h, le_of_eq hlen⟩ after
  rw [← he'] at hrank
  have hstart : handingRank e.emitted.length e ≤ 7 * e.callback.left.length := by
    unfold handingRank
    rw [hlen]
    have hleft := (SpscRingBuffer.pushLedger_bounded e.ring).left_le
    split_ifs
    · exact Nat.zero_le _
    · split <;> omega
  refine h.emitted_prefix (consistent_live parse host symbol spread cfg (before ++ after)) hmsgs ?_
  by_contra hlt
  have hpos : 0 < handingRank e.emitted.length e' := by
    unfold handingRank
    rw [if_neg hlt]
    have hleft := (SpscRingBuffer.pushLedger_bounded e'.ring).left_pos
    split <;> omega
  omega

/-! ### A message of one trade -/

/-- A text of the feed: ten shares of `A` at $100. -/
def sampleText : List UInt8 :=
  [123, 34, 100, 97, 116, 97, 34, 58, 91, 123, 34, 112, 34, 58, 49, 48, 48, 44, 34, 115, 34, 58,
    34, 65, 34, 44, 34, 116, 34, 58, 49, 44, 34, 118, 34, 58, 49, 48, 125, 93, 44, 34, 116, 121,
    112, 101, 34, 58, 34, 116, 114, 97, 100, 101, 34, 125]

theorem byte_fits (n : UInt8) : -2 ^ 63 ≤ (n.toNat : ℤ) ∧ (n.toNat : ℤ) < 2 ^ 64 := by
  have hn := n.toNat_lt
  omega

/-- A literal of at most three digits. -/
def literal (n : UInt8) : Json F := .integer n.toNat (byte_fits n)

/-- What the JSON library makes of the text. -/
def sampleParse (text : List UInt8) : Option (Json F) :=
  if text == sampleText then
    some (.object [
      (kData, .array [.object [
        (kPrice, literal 100), (kSymbol, .string [65]),
        (kTimestamp, literal 1), (kVolume, literal 10)]]),
      (kType, .string kTrade)])
  else none

/-- The engine has received the text, and the callback has three events to push. -/
def sampleStart : List LiveAction := [.callback (.message sampleText)]

theorem feed_never_blocks_batch :
    (live sampleParse (lowHost ℚ) [65] (1 / 50) {} sampleStart).emitted <+:
      (live sampleParse (lowHost ℚ) [65] (1 / 50) {}
        (sampleStart ++ List.replicate 21 (.callback .other))).handed.map Prod.fst :=
  feed_never_blocks sampleParse (lowHost ℚ) [65] (1 / 50) {} sampleStart
    (List.replicate 21 (.callback .other)) (by decide +kernel)

/-! ## The main thread -/

/-- The steps of the main thread until it has finished, once the client has stopped. -/
def drainRank (e : LiveEngine F) : ℕ :=
  match e.main with
  | .drain => 7 * e.ring.held + e.ring.popLedger.left
  | .drainHandle _ => 7 * e.ring.held + 7
  | _ => 0

/-- **Step lemma**, for the main thread. -/
theorem Consistent.draining (h : Consistent parse host symbol spread cfg e) (hs : e.stopped = true)
    (go : Bool) (now : Timestamp) :
    (e.mainStep host go now).stopped = true ∧
      drainRank (e.mainStep host go now) ≤ drainRank e - 1 := by
  have hmain := h.stopped
  rw [hs] at hmain
  cases hm : e.main with
  | drain =>
    have hstep : e.mainStep host go now = e.popStep .drainHandle .finished := by
      unfold LiveEngine.mainStep
      rw [hm]
    have hbefore : drainRank e = 7 * e.ring.held + e.ring.popLedger.left := by
      unfold drainRank
      rw [hm]
    have heffect := SpscRingBuffer.popStep_effect ringCapacity id e.ring
    have hsame := SpscRingBuffer.popStep_sameProducer ringCapacity id e.ring
    have hpos := (SpscRingBuffer.popLedger_bounded e.ring).left_pos
    rw [hstep, hbefore]
    unfold LiveEngine.popStep
    dsimp only
    cases hr : e.ring.popReturns with
    | none =>
      have hleft := SpscRingBuffer.popStep_left ringCapacity id hr
      rw [hr] at heffect
      refine ⟨hs, ?_⟩
      unfold drainRank SpscRingBuffer.held
      dsimp only
      rw [hm, hsame.pushed, heffect.2.1]
      dsimp only
      omega
    | some result =>
      rw [hr] at heffect
      cases result with
      | none => exact ⟨hs, Nat.zero_le _⟩
      | some v =>
        -- the value returned was held
        have hle := h.ring.popStep.popped_le
        rw [heffect.2.1, hsame.pushed, List.length_append, List.length_singleton] at hle
        refine ⟨hs, ?_⟩
        unfold drainRank SpscRingBuffer.held
        dsimp only
        rw [hsame.pushed, heffect.2.1, List.length_append, List.length_singleton]
        omega
  | drainHandle ev =>
    have hidle := h.idle (by rw [hm]; rfl)
    have hleft : e.ring.popLedger.left = 6 := by
      unfold SpscRingBuffer.popLedger
      rw [hidle]
    have hstep : e.mainStep host go now = e.call host (.process ev) .drain := by
      unfold LiveEngine.mainStep
      rw [hm]
    have hbefore : drainRank e = 7 * e.ring.held + 7 := by
      unfold drainRank
      rw [hm]
    rw [hstep, hbefore]
    refine ⟨hs, ?_⟩
    show 7 * e.ring.held + e.ring.popLedger.left ≤ _
    omega
  | finished =>
    unfold LiveEngine.mainStep
    rw [hm]
    unfold drainRank
    dsimp only
    rw [hm]
    exact ⟨hs, Nat.zero_le _⟩
  | loop => rw [hm] at hmain; cases hmain
  | poll => rw [hm] at hmain; cases hmain
  | handle ev => rw [hm] at hmain; cases hmain
  | clock => rw [hm] at hmain; cases hmain
  | stop => rw [hm] at hmain; cases hmain

/-- **The shutdown comes to an end.** From any reachable state in which the client has stopped and
in any interleaving: after seven steps for each event in the ring, and seven more, the main thread
has finished, and the ring is empty. -/
theorem shutdown_drains (parse : List UInt8 → Option (Json F)) (host : Host F)
    (symbol : List UInt8) (spread : F) (cfg : PipelineConfig F) (before after : List LiveAction) :
    let e := live parse host symbol spread cfg before
    let e' := live parse host symbol spread cfg (before ++ after)
    e.stopped = true → 7 * e.ring.held + 7 ≤ after.countP LiveAction.isMain →
      e'.main = .finished ∧ e'.ring.held = 0 ∧ e'.messages = e.messages := by
  intro e e' hs hsteps
  have h : Consistent parse host symbol spread cfg e :=
    consistent_live parse host symbol spread cfg before
  have h' : Consistent parse host symbol spread cfg e' :=
    consistent_live parse host symbol spread cfg (before ++ after)
  have he' : e' = run (liveStep parse host) e after := live_append before after
  -- the callback thread has ended
  have hcallback : ∀ s : LiveEngine F, Consistent parse host symbol spread cfg s →
      s.stopped = true → ∀ msg, s.callbackStep parse msg = s := by
    intro s hc hstop msg
    unfold LiveEngine.callbackStep
    rw [hc.waiting hstop]
    exact if_pos hstop
  have hkeeps : ∀ (s : LiveEngine F) (a : LiveAction),
      (Consistent parse host symbol spread cfg s ∧ s.stopped = true ∧ s.messages = e.messages) →
      Consistent parse host symbol spread cfg (liveStep parse host s a) ∧
        (liveStep parse host s a).stopped = true ∧
        (liveStep parse host s a).messages = e.messages := by
    intro s a hc
    cases a with
    | callback msg =>
      rw [liveStep, hcallback s hc.1 hc.2.1 msg]
      exact hc
    | main go now =>
      exact ⟨hc.1.mainStep go now, (hc.1.draining hc.2.1 go now).1,
        (sameFeedThread_mainStep host s go now).messages.trans hc.2.2⟩
  have hrank := rank_le_of_steps (liveStep parse host) LiveAction.isMain drainRank
    (I := fun s => Consistent parse host symbol spread cfg s ∧ s.stopped = true ∧
      s.messages = e.messages) hkeeps
    (fun s a hc => by
      cases a with
      | callback msg => exact le_of_eq (congrArg drainRank (hcallback s hc.1 hc.2.1 msg))
      | main go now => exact (hc.1.draining hc.2.1 go now).2)
    (s := e) ⟨h, hs, rfl⟩ after
  have hend := run_invariant (liveStep parse host) hkeeps ⟨h, hs, rfl⟩ after
  rw [← he'] at hrank hend
  have hstart : drainRank e ≤ 7 * e.ring.held + 7 := by
    unfold drainRank
    have hleft := (SpscRingBuffer.popLedger_bounded e.ring).left_le
    split <;> omega
  have hzero : drainRank e' = 0 := by omega
  have hmain := h'.stopped
  rw [hend.2.1] at hmain
  have hfinished : e'.main = .finished := by
    have hpos := (SpscRingBuffer.popLedger_bounded e'.ring).left_pos
    unfold drainRank at hzero
    cases hm : e'.main with
    | finished => rfl
    | drain =>
      rw [hm] at hzero
      dsimp only at hzero
      omega
    | drainHandle ev =>
      rw [hm] at hzero
      dsimp only at hzero
      omega
    | loop => rw [hm] at hmain; cases hmain
    | poll => rw [hm] at hmain; cases hmain
    | handle ev => rw [hm] at hmain; cases hmain
    | clock => rw [hm] at hmain; cases hmain
    | stop => rw [hm] at hmain; cases hmain
  refine ⟨hfinished, ?_, hend.2.2⟩
  unfold SpscRingBuffer.held
  rw [h'.finished hfinished, Nat.sub_self]

/-- The three events are pushed, and the client stops. -/
def sampleStopped : List LiveAction :=
  sampleStart ++ List.replicate 12 (.callback .other) ++ [.main false 0, .main false 0]

theorem shutdown_drains_batch :
    let e := live sampleParse (lowHost ℚ) [65] (1 / 50) {} sampleStopped
    let e' := live sampleParse (lowHost ℚ) [65] (1 / 50) {}
      (sampleStopped ++ List.replicate 28 (.main true 0))
    e'.main = .finished ∧ e'.ring.held = 0 ∧ e'.messages = e.messages :=
  shutdown_drains sampleParse (lowHost ℚ) [65] (1 / 50) {} sampleStopped
    (List.replicate 28 (.main true 0)) (by decide +kernel) (by decide +kernel)

/-- The sample message, played to the end. -/
def sampleFinished : List LiveAction := sampleStopped ++ List.replicate 28 (.main true 0)

end LiveEngine

end Lob
