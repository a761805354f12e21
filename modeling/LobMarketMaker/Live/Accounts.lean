import LobMarketMaker.Live.Engine
import LobMarketMaker.Pipeline.Delivery
import LobMarketMaker.Pipeline.Telemetry

/-!
# The accounts of the live engine

* `Consistent`: what holds between any two steps of the two threads; `Consistent.callbackStep`,
  `Consistent.mainStep`: each step keeps it;
* **`live_accounts`**: in every interleaving the pipeline processes the tape's events in order, each
  of them once, and every one that it does not get is counted.
-/

set_option autoImplicit false

namespace Lob

open Foundation

/-- The events of the batch that `push` has not returned for. -/
def CallbackPc.left : CallbackPc → List MarketEvent
  | .waiting => []
  | .pushing ev rest => ev :: rest
  | .counting rest => rest

/-- The drops that are not counted yet. -/
def CallbackPc.owed : CallbackPc → ℕ
  | .counting _ => 1
  | _ => 0

@[simp] theorem CallbackPc.left_next (l : List MarketEvent) : (next l).left = l := by
  cases l <;> rfl

@[simp] theorem CallbackPc.owed_next (l : List MarketEvent) : (next l).owed = 0 := by
  cases l <;> rfl

/-- The event that was popped and is not processed yet. -/
def MainPc.inHand : MainPc → List MarketEvent
  | .handle ev | .drainHandle ev => [ev]
  | _ => []

/-- The main thread is in a loop over `ring.pop()`. -/
def MainPc.popping : MainPc → Bool
  | .poll | .drain => true
  | _ => false

/-- The main thread is past `client.stop()`. -/
def MainPc.stopped : MainPc → Bool
  | .drain | .drainHandle _ | .finished => true
  | _ => false

namespace SpscRingBuffer

variable {T : Type}

theorem popStep_retest [Inhabited T] (cap : Capacity) (moved : T → T) (s : SpscRingBuffer T)
    {tail n : ℕ} (h : (s.popStep cap moved).consumer = .retest tail n) :
    n = (s.popStep cap moved).held := by
  unfold popStep at h ⊢
  cases hs : s.consumer with
  | idle => rw [hs] at h; cases h
  | test t => rw [hs] at h; dsimp only at h; split_ifs at h
  | refresh t =>
    rw [hs] at h
    cases h
    rfl
  | retest t k => rw [hs] at h; dsimp only at h; split_ifs at h
  | read t => rw [hs] at h; cases h
  | publish t v => rw [hs] at h; cases h

theorem producer_idle_iff {s : SpscRingBuffer T} : s.producer = .idle ↔ s.pushing = none := by
  unfold pushing
  cases s.producer <;> simp

end SpscRingBuffer

namespace LiveEngine

variable {F : Type} [Double F] (parse : List UInt8 → Option (Json F)) (host : Host F)
  (symbol : List UInt8) (spread : F) (cfg : PipelineConfig F)

/-- The events that the messages so far hold. -/
def emitted (e : LiveEngine F) : List MarketEvent := e.handed.map Prod.fst ++ e.callback.left

/-- **The invariant.** -/
structure Consistent (e : LiveEngine F) : Prop where
  ring : e.ring.Inv ringCapacity id
  tape : TradeTapeAdapter.onTrades (.new spread)
    (e.messages.flatMap (FinnhubClient.tradesOf parse)) = (e.emitted, e.client.adapter)
  pushing : ∀ ev, e.ring.pushing = some ev → ∃ rest, e.callback = .pushing ev rest
  pushed : e.ring.pushed = (e.handed.filter (·.2)).map Prod.fst
  refused : e.ring.refused.length = e.handed.countP (!·.2)
  dropped : e.dropped + e.callback.owed = e.ring.refused.length
  popping : e.ring.consumer ≠ .idle → e.main.popping = true
  popped : e.ring.popped = delivered e.calls ++ e.main.inHand
  pipeline : e.pipeline = Pipeline.after host (Symbol.ofView symbol) cfg e.calls
  stopped : e.stopped = e.main.stopped
  waiting : e.stopped = true → e.callback = .waiting
  settled : e.main = .drain → ∀ tail n, e.ring.consumer = .retest tail n → n = e.ring.held
  finished : e.main = .finished → e.ring.popped = e.ring.pushed

variable {parse host symbol spread cfg} {e : LiveEngine F}

theorem consistent_new : Consistent parse host symbol spread cfg (new symbol spread cfg) where
  ring := SpscRingBuffer.inv_new
  tape := rfl
  pushing := nofun
  pushed := rfl
  refused := rfl
  dropped := rfl
  popping := fun h => absurd rfl h
  popped := rfl
  pipeline := rfl
  stopped := rfl
  waiting := nofun
  settled := nofun
  finished := nofun

/-! ## The callback thread -/

theorem Consistent.not_stopped (h : Consistent parse host symbol spread cfg e)
    (hc : e.callback ≠ .waiting) : e.main.stopped = false := by
  rw [← h.stopped]
  exact Bool.eq_false_iff.mpr fun hs => hc (h.waiting hs)

theorem Consistent.pushing_eq_none (h : Consistent parse host symbol spread cfg e)
    (hc : ∀ ev rest, e.callback ≠ .pushing ev rest) : e.ring.pushing = none := by
  cases hp : e.ring.pushing with
  | none => rfl
  | some ev =>
    obtain ⟨rest, hrest⟩ := h.pushing ev hp
    exact absurd hrest (hc ev rest)

theorem Consistent.receive (h : Consistent parse host symbol spread cfg e)
    (hc : e.callback = .waiting) (hs : e.stopped = false) (msg : WebSocketMessage) :
    Consistent parse host symbol spread cfg
      { e with
        client := (e.client.onMessage parse msg).2
        callback := .next (e.client.onMessage parse msg).1
        messages := e.messages ++ [msg] } := by
  have hmsg := (FinnhubClient.onMessage_effect parse e.client msg).tape
  have hnone := h.pushing_eq_none (by rw [hc]; exact fun _ _ => nofun)
  have htape := h.tape
  have hdropped := h.dropped
  rw [emitted, hc, CallbackPc.left, List.append_nil] at htape
  rw [hc] at hdropped
  exact { h with
    tape := by
      rw [List.flatMap_append, List.flatMap_singleton, TradeTapeAdapter.onTrades_append, htape,
        hmsg]
      exact Prod.ext (congrArg (_ ++ ·) (CallbackPc.left_next _).symm) rfl
    pushing := fun ev hev => by
      rw [hnone] at hev
      cases hev
    dropped := by
      rw [CallbackPc.owed_next]
      exact hdropped
    waiting := fun hs' => absurd hs' (by rw [hs]; exact Bool.false_ne_true) }

theorem Consistent.pushing_getD (h : Consistent parse host symbol spread cfg e) {ev : MarketEvent}
    {rest : List MarketEvent} (hc : e.callback = .pushing ev rest) :
    e.ring.pushing.getD ev = ev := by
  cases hp : e.ring.pushing with
  | none => rfl
  | some v =>
    obtain ⟨rest', hrest⟩ := h.pushing v hp
    rw [hc] at hrest
    cases hrest
    rfl

theorem Consistent.push (h : Consistent parse host symbol spread cfg e) {ev : MarketEvent}
    {rest : List MarketEvent} (hc : e.callback = .pushing ev rest) (msg : WebSocketMessage) :
    Consistent parse host symbol spread cfg (e.callbackStep parse msg) := by
  have hns := h.not_stopped (by rw [hc]; exact nofun)
  have harg := h.pushing_getD hc
  have heffect := SpscRingBuffer.pushStep_effect ringCapacity ev e.ring
  have hsame := SpscRingBuffer.pushStep_sameConsumer ringCapacity ev e.ring
  have hring := h.ring.pushStep ev
  have htape := h.tape
  have hdropped := h.dropped
  rw [harg] at heffect
  rw [emitted, hc, CallbackPc.left] at htape
  rw [hc] at hdropped
  have hpopping : (e.ring.pushStep ringCapacity ev).consumer ≠ .idle → e.main.popping = true := by
    rw [hsame.consumer]
    exact h.popping
  have hpopped := hsame.popped.trans h.popped
  have hwaiting : e.stopped = true → False := by
    rw [h.stopped, hns]
    exact Bool.false_ne_true
  have hdrain : e.main ≠ .drain := fun hm => by rw [hm] at hns; cases hns
  have hfinished : e.main ≠ .finished := fun hm => by rw [hm] at hns; cases hns
  unfold callbackStep
  rw [hc]
  dsimp only
  cases hr : e.ring.pushReturns with
  | none =>
    rw [hr] at heffect
    obtain ⟨hpushing, hpushed, hrefused⟩ := heffect
    exact { h with
      ring := hring
      tape := htape
      pushing := fun v hv => by
        rw [hpushing] at hv
        cases hv
        exact ⟨rest, rfl⟩
      pushed := hpushed.trans h.pushed
      refused := by rw [hrefused]; exact h.refused
      dropped := by rw [hrefused]; exact hdropped
      popping := hpopping
      popped := hpopped
      waiting := fun hs => (hwaiting hs).elim
      settled := fun hm => absurd hm hdrain
      finished := fun hm => absurd hm hfinished }
  | some accepted =>
    rw [hr] at heffect
    have hidle : (e.ring.pushStep ringCapacity ev).pushing = none := by
      rw [← SpscRingBuffer.producer_idle_iff]
      cases accepted with
      | true => exact heffect.1
      | false => exact heffect.1
    have hpushing : ∀ v, (e.ring.pushStep ringCapacity ev).pushing = some v → False := by
      intro v hv
      rw [hidle] at hv
      cases hv
    cases accepted with
    | true =>
      obtain ⟨-, hpushed, hrefused⟩ := heffect
      exact { h with
        ring := hring
        tape := by
          rw [htape, emitted, CallbackPc.left_next, List.map_append, List.append_assoc]
          rfl
        pushing := fun v hv => (hpushing v hv).elim
        pushed := by rw [hpushed, h.pushed, List.filter_append, List.map_append]; rfl
        refused := by rw [hrefused, h.refused, List.countP_append]; rfl
        dropped := by rw [hrefused, CallbackPc.owed_next]; exact hdropped
        popping := hpopping
        popped := hpopped
        waiting := fun hs => (hwaiting hs).elim
        settled := fun hm => absurd hm hdrain
        finished := fun hm => absurd hm hfinished }
    | false =>
      obtain ⟨-, hpushed, n, hrefused⟩ := heffect
      exact { h with
        ring := hring
        tape := by
          rw [htape, emitted, CallbackPc.left, List.map_append, List.append_assoc]
          rfl
        pushing := fun v hv => (hpushing v hv).elim
        pushed := by
          rw [hpushed, h.pushed, List.filter_append, List.map_append]
          exact (List.append_nil _).symm
        refused := by
          rw [hrefused, List.length_append, h.refused, List.countP_append]
          rfl
        dropped := by
          rw [hrefused, List.length_append, ← hdropped]
          rfl
        popping := hpopping
        popped := hpopped
        waiting := fun hs => (hwaiting hs).elim
        settled := fun hm => absurd hm hdrain
        finished := fun hm => absurd hm hfinished }

/-- **Step lemma**, for the callback thread. -/
theorem Consistent.callbackStep (h : Consistent parse host symbol spread cfg e)
    (msg : WebSocketMessage) :
    Consistent parse host symbol spread cfg (e.callbackStep parse msg) := by
  cases hc : e.callback with
  | waiting =>
    unfold LiveEngine.callbackStep
    rw [hc]
    dsimp only
    by_cases hs : e.stopped = true
    · rw [if_pos hs]
      exact h
    · rw [if_neg hs]
      exact h.receive hc (Bool.eq_false_iff.mpr hs) msg
  | pushing ev rest => exact h.push hc msg
  | counting rest =>
    have hnone := h.pushing_eq_none (by rw [hc]; exact fun _ _ => nofun)
    have htape := h.tape
    have hdropped := h.dropped
    have hns := h.not_stopped (by rw [hc]; exact nofun)
    rw [emitted, hc, CallbackPc.left] at htape
    rw [hc, CallbackPc.owed] at hdropped
    unfold LiveEngine.callbackStep
    rw [hc]
    exact { h with
      tape := by
        rw [htape, emitted, CallbackPc.left_next]
      pushing := fun ev hev => by
        rw [hnone] at hev
        cases hev
      dropped := by
        rw [CallbackPc.owed_next]
        exact hdropped
      waiting := fun hs => by
        rw [h.stopped, hns] at hs
        cases hs }

/-! ## The main thread -/

theorem Consistent.idle (h : Consistent parse host symbol spread cfg e)
    (hm : e.main.popping = false) : e.ring.consumer = .idle := by
  by_contra hne
  rw [h.popping hne] at hm
  cases hm

theorem Consistent.moveTo (h : Consistent parse host symbol spread cfg e) {pc : MainPc}
    (hm : e.main.popping = false) (hhand : e.main.inHand = pc.inHand)
    (hstopped : e.main.stopped = pc.stopped) (hpc : pc ≠ .finished) :
    Consistent parse host symbol spread cfg { e with main := pc } :=
  { h with
    popping := fun hne => absurd (h.idle hm) hne
    popped := h.popped.trans (congrArg (delivered e.calls ++ ·) hhand)
    stopped := h.stopped.trans hstopped
    settled := fun _ tail n hret => by
      have hidle : e.ring.consumer = .idle := h.idle hm
      rw [hidle] at hret
      cases hret
    finished := fun hf => absurd hf hpc }

theorem Consistent.call (h : Consistent parse host symbol spread cfg e) (c : Call) {pc : MainPc}
    (hm : e.main.popping = false) (hhand : e.main.inHand = delivered [c])
    (hpc : pc.inHand = []) (hstopped : e.main.stopped = pc.stopped) (hfinished : pc ≠ .finished) :
    Consistent parse host symbol spread cfg (e.call host c pc) := by
  have hdelivered : delivered (e.calls ++ [c]) = delivered e.calls ++ delivered [c] :=
    List.filterMap_append
  exact { h with
    popping := fun hne => absurd (h.idle hm) hne
    popped := by
      show e.ring.popped = delivered (e.calls ++ [c]) ++ pc.inHand
      rw [hpc, hdelivered, List.append_nil, h.popped, hhand]
    pipeline := by
      show e.pipeline.call host c = Pipeline.after host (Symbol.ofView symbol) cfg (e.calls ++ [c])
      rw [h.pipeline, Pipeline.after, Pipeline.after, run_concat]
    stopped := h.stopped.trans hstopped
    settled := fun _ tail n hret => by
      have hidle : e.ring.consumer = .idle := h.idle hm
      change e.ring.consumer = _ at hret
      rw [hidle] at hret
      cases hret
    finished := fun hf => absurd hf hfinished }

theorem Consistent.popStep (h : Consistent parse host symbol spread cfg e)
    {found : MarketEvent → MainPc} {empty : MainPc} (hm : e.main.popping = true)
    (hstopped : ∀ ev, (found ev).stopped = e.main.stopped) (hempty : empty.stopped = e.main.stopped)
    (hhand : e.main.inHand = []) (hfound : ∀ ev, (found ev).inHand = [ev])
    (hempty' : empty.inHand = []) (hdrain : ∀ ev, found ev ≠ .drain) (hdrain' : empty ≠ .drain)
    (hfinished : ∀ ev, found ev ≠ .finished) (hlast : empty = .finished → e.main = .drain) :
    Consistent parse host symbol spread cfg (e.popStep found empty) := by
  have heffect := SpscRingBuffer.popStep_effect ringCapacity id e.ring
  have hsame := SpscRingBuffer.popStep_sameProducer ringCapacity id e.ring
  have hring := h.ring.popStep
  have hpopped := h.popped
  rw [hhand, List.append_nil] at hpopped
  have hnotdone : e.main ≠ .finished := fun hf => by rw [hf] at hm; cases hm
  -- what the producer's side sees of the step
  have hpushing : (e.ring.popStep ringCapacity id).pushing = e.ring.pushing := by
    unfold SpscRingBuffer.pushing
    rw [hsame.producer]
  have hpushing' : ∀ ev, (e.ring.popStep ringCapacity id).pushing = some ev →
      ∃ rest, e.callback = .pushing ev rest := by
    rw [hpushing]
    exact h.pushing
  have hpushed := hsame.pushed.trans h.pushed
  have hrefused : (e.ring.popStep ringCapacity id).refused.length = e.handed.countP (!·.2) := by
    rw [hsame.refused]
    exact h.refused
  have hdropped : e.dropped + e.callback.owed = (e.ring.popStep ringCapacity id).refused.length := by
    rw [hsame.refused]
    exact h.dropped
  unfold LiveEngine.popStep
  dsimp only
  cases hr : e.ring.popReturns with
  | none =>
    rw [hr] at heffect
    exact { h with
      ring := hring
      pushing := hpushing'
      pushed := hpushed
      refused := hrefused
      dropped := hdropped
      popping := fun _ => hm
      popped := by rw [heffect.2.1, h.popped]
      settled := fun _ tail n hret => SpscRingBuffer.popStep_retest ringCapacity id e.ring hret
      finished := fun hf => absurd hf hnotdone }
  | some result =>
    rw [hr] at heffect
    have hidle : (e.ring.popStep ringCapacity id).consumer = .idle := by
      cases result with
      | none => exact heffect.1
      | some ev => exact heffect.1
    cases result with
    | some ev =>
      exact { h with
        ring := hring
        pushing := hpushing'
        pushed := hpushed
        refused := hrefused
        dropped := hdropped
        popping := fun hne => absurd hidle hne
        popped := by rw [heffect.2.1, hfound, hpopped]
        stopped := h.stopped.trans (hstopped ev).symm
        settled := fun hf => absurd hf (hdrain ev)
        finished := fun hf => absurd hf (hfinished ev) }
    | none =>
      obtain ⟨-, hsamePopped, tail, n, hret, hmissed⟩ := heffect
      exact { h with
        ring := hring
        pushing := hpushing'
        pushed := hpushed
        refused := hrefused
        dropped := hdropped
        popping := fun hne => absurd hidle hne
        popped := by rw [hsamePopped, hempty', List.append_nil, hpopped]
        stopped := h.stopped.trans hempty.symm
        settled := fun hf => absurd hf hdrain'
        finished := fun hf => by
          -- nothing was held when the head was read, and nothing was pushed since
          have hn : n = 0 := hring.missed n (by rw [hmissed]; simp)
          have hheld : e.ring.held = 0 := (h.settled (hlast hf) tail n hret).symm.trans hn
          have hle := h.ring.popped_le
          have hlen : e.ring.popped.length = e.ring.pushed.length := by
            unfold SpscRingBuffer.held at hheld
            omega
          rw [hsamePopped, hsame.pushed]
          exact h.ring.accounted.isPrefix.eq_of_length hlen }

/-- **Step lemma**, for the main thread. -/
theorem Consistent.mainStep (h : Consistent parse host symbol spread cfg e) (go : Bool)
    (now : Timestamp) : Consistent parse host symbol spread cfg (e.mainStep host go now) := by
  unfold LiveEngine.mainStep
  cases hm : e.main with
  | loop =>
    dsimp only
    cases go with
    | true => exact h.moveTo (by rw [hm]; rfl) (by rw [hm]; rfl) (by rw [hm]; rfl) nofun
    | false => exact h.moveTo (by rw [hm]; rfl) (by rw [hm]; rfl) (by rw [hm]; rfl) nofun
  | poll =>
    exact h.popStep (by rw [hm]; rfl) (fun _ => by rw [hm]; rfl) (by rw [hm]; rfl)
      (by rw [hm]; rfl) (fun _ => rfl) rfl (fun _ => nofun) nofun (fun _ => nofun) nofun
  | handle ev =>
    exact h.call (.process ev) (by rw [hm]; rfl) (by rw [hm]; rfl) rfl (by rw [hm]; rfl) nofun
  | clock =>
    exact h.call (.onClock now) (by rw [hm]; rfl) (by rw [hm]; rfl) rfl (by rw [hm]; rfl) nofun
  | stop =>
    dsimp only
    split_ifs with hc
    · have hidle := h.idle (by rw [hm]; rfl)
      exact { h with
        popping := fun hne => absurd hidle hne
        popped := h.popped.trans (by rw [hm]; rfl)
        stopped := rfl
        waiting := fun _ => hc
        settled := fun _ tail n hret => by
          rw [hidle] at hret
          cases hret
        finished := nofun }
    · exact h
  | drain =>
    exact h.popStep (by rw [hm]; rfl) (fun _ => by rw [hm]; rfl) (by rw [hm]; rfl)
      (by rw [hm]; rfl) (fun _ => rfl) rfl (fun _ => nofun) nofun (fun _ => nofun) (fun _ => hm)
  | drainHandle ev =>
    exact h.call (.process ev) (by rw [hm]; rfl) (by rw [hm]; rfl) rfl (by rw [hm]; rfl) nofun
  | finished => exact h

/-- **Run lemma.** -/
theorem consistent_live (parse : List UInt8 → Option (Json F)) (host : Host F)
    (symbol : List UInt8) (spread : F) (cfg : PipelineConfig F) (actions : List LiveAction) :
    Consistent parse host symbol spread cfg (live parse host symbol spread cfg actions) := by
  refine run_invariant (liveStep parse host) ?_ consistent_new actions
  intro e a h
  cases a with
  | callback msg => exact h.callbackStep msg
  | main go now => exact h.mainStep go now

end LiveEngine

/-! ## Deliveries in order -/

section Tape

variable {F : Type} [Double F]

theorem consecutive_tape (spread : F) (trades : List (FinnhubTrade F)) :
    Consecutive (TradeTapeAdapter.onTrades (.new spread) trades).1 := by
  obtain ⟨o, ho, -, -⟩ := TradeTapeAdapter.onTrades_emitted (fun _ _ => True) (Symbol.ofView [])
    spread trades fun _ _ => trivial
  have hchain := List.isChain_range' 1 (TradeTapeAdapter.onTrades (.new spread) trades).1.length 1
  rw [← ho.sequences, List.isChain_map] at hchain
  exact hchain

/-- **Rising sequence numbers** are all accepted. -/
theorem Pipeline.accepted_of_rising (host : Host F) (symbol : Symbol) (cfg : PipelineConfig F)
    {calls : List Call} (h : (delivered calls).Pairwise fun a b => a.sequence < b.sequence) :
    (new symbol cfg).accepted host calls = delivered calls := by
  induction calls using List.reverseRecOn with
  | nil => rfl
  | append_singleton calls c ih =>
    have hsplit : delivered (calls ++ [c]) = delivered calls ++ delivered [c] :=
      List.filterMap_append
    rw [hsplit] at h
    obtain ⟨hbefore, -, hcross⟩ := List.pairwise_append.mp h
    have hlast := (after_trackers host symbol cfg calls).lastSequence
    rw [hsplit, accepted_append, ih hbefore]
    rw [ih hbefore] at hlast
    change (run (call host) _ calls).lastSequence = _ at hlast
    generalize run (call host) (new symbol cfg) calls = p at hlast
    cases c with
    | onClock now => rfl
    | process ev =>
      have hd : ¬ p.outOfOrder ev = true := by
        unfold outOfOrder
        rw [hlast, Option.any_map]
        cases hl : (delivered calls).getLast? with
        | none => exact Bool.false_ne_true
        | some last =>
          have hlt := hcross last (List.mem_of_getLast? hl) ev (List.mem_singleton_self _)
          exact fun h => absurd (of_decide_eq_true h) (not_le.mpr hlt)
      rw [accepted, if_neg hd, accepted]
      rfl

end Tape

namespace LiveEngine

variable {F : Type} [Double F] {parse : List UInt8 → Option (Json F)} {host : Host F}
  {symbol : List UInt8} {spread : F} {cfg : PipelineConfig F} {e : LiveEngine F}

theorem Consistent.emitted_eq (h : Consistent parse host symbol spread cfg e) :
    (TradeTapeAdapter.onTrades (.new spread)
      (e.messages.flatMap (FinnhubClient.tradesOf parse))).1 = e.emitted :=
  congrArg Prod.fst h.tape

theorem Consistent.consecutive (h : Consistent parse host symbol spread cfg e) :
    Consecutive e.emitted := by
  rw [← h.emitted_eq]
  exact consecutive_tape spread _

theorem Consistent.pushed_sublist (h : Consistent parse host symbol spread cfg e) :
    e.ring.pushed.Sublist (e.handed.map Prod.fst) := by
  rw [h.pushed]
  exact List.filter_sublist.map _

theorem Consistent.delivered_prefix (h : Consistent parse host symbol spread cfg e) :
    delivered e.calls <+: e.ring.pushed := by
  have hpre : delivered e.calls <+: e.ring.popped := ⟨_, h.popped.symm⟩
  exact hpre.trans h.ring.accounted.isPrefix

theorem Consistent.handed_length (h : Consistent parse host symbol spread cfg e) :
    e.ring.pushed.length + e.ring.refused.length = e.handed.length := by
  have hnot : (fun x : MarketEvent × Bool => decide ¬ x.2 = true) = fun x => !x.2 := by
    funext x
    cases x.2 <;> rfl
  have hcount := List.length_eq_countP_add_countP Prod.snd (l := e.handed)
  rw [h.pushed, h.refused, List.length_map, ← List.countP_eq_length_filter]
  rw [hnot] at hcount
  exact hcount.symm

/-- **All that was delivered was accepted.** -/
theorem Consistent.accepted_eq (h : Consistent parse host symbol spread cfg e) :
    (Pipeline.new (Symbol.ofView symbol) cfg).accepted host e.calls = delivered e.calls := by
  refine Pipeline.accepted_of_rising host _ cfg ?_
  have hsub : (delivered e.calls).Sublist e.emitted :=
    (h.delivered_prefix.sublist.trans h.pushed_sublist).trans (List.sublist_append_left _ _)
  exact h.consecutive.pairwise.sublist hsub

/-- **No event is lost unnoticed.** In every interleaving of the two threads, with whatever messages:
the pipeline is given the events that were pushed, in the tape's order and each once; it drops none
of them as out of order; it sees no more gaps than events were refused, and these were refused while
the ring was full; once the engine has finished, every event of the tape is processed or counted. -/
theorem live_accounts (parse : List UInt8 → Option (Json F)) (host : Host F)
    (symbol : List UInt8) (spread : F) (cfg : PipelineConfig F) (actions : List LiveAction) :
    let e := live parse host symbol spread cfg actions
    let events := (TradeTapeAdapter.onTrades (.new spread)
      (e.messages.flatMap (FinnhubClient.tradesOf parse))).1
    delivered e.calls <+: e.ring.pushed ∧ e.ring.pushed.Sublist events ∧
    e.pipeline.stats.eventsProcessed = (delivered e.calls).length ∧
    e.pipeline.stats.outOfOrderDropped = 0 ∧
    e.pipeline.stats.sequenceGaps ≤ e.ring.refused.length ∧
    (∀ r ∈ e.ring.refused, r.2 = 65535) ∧
    (e.main = .finished →
      e.pipeline.stats.eventsProcessed + e.dropped = events.length ∧
      e.ring.refused.length = e.dropped ∧ delivered e.calls = e.ring.pushed) := by
  intro e events
  have h : Consistent parse host symbol spread cfg e :=
    consistent_live parse host symbol spread cfg actions
  have hevents : events = e.emitted := h.emitted_eq
  have htelemetry := Pipeline.counted_after host (Symbol.ofView symbol) cfg e.calls
  rw [h.accepted_eq, ← h.pipeline] at htelemetry
  have hprocessed : e.pipeline.stats.eventsProcessed = (delivered e.calls).length :=
    htelemetry.eventsProcessed
  refine ⟨h.delivered_prefix, ?_, hprocessed, ?_, ?_, h.ring.refused, fun hf => ?_⟩
  · rw [hevents]
    exact h.pushed_sublist.trans (List.sublist_append_left _ _)
  · have hdropped := htelemetry.outOfOrderDropped
    have : e.pipeline.stats.outOfOrderDropped + (delivered e.calls).length =
      (delivered e.calls).length := hdropped
    omega
  · have hgaps : e.pipeline.stats.sequenceGaps = breaks Pipeline.gapBetween (delivered e.calls) :=
      htelemetry.sequenceGaps
    obtain ⟨rest, hrest⟩ := h.delivered_prefix
    have hmore := breaks_le_append Pipeline.gapBetween (delivered e.calls) rest
    have hchain : (e.handed.map Prod.fst).IsChain fun a b => Pipeline.gapBetween a b = false := by
      have hcons : Consecutive (e.handed.map Prod.fst) := h.consecutive.left_of_append
      refine hcons.imp fun a b hab => ?_
      exact decide_eq_false (not_not.mpr hab)
    have hbreaks := breaks_add_length_le hchain h.pushed_sublist
    have hlen := h.handed_length
    rw [hrest] at hmore
    rw [List.length_map] at hbreaks
    omega
  · have hstopped : e.stopped = true := by rw [h.stopped, hf]; rfl
    have hwaiting := h.waiting hstopped
    have hlen := h.handed_length
    have hpopped : e.ring.popped = delivered e.calls := by
      rw [h.popped, hf]
      exact List.append_nil _
    have hdropped : e.dropped = e.ring.refused.length := by
      rw [← h.dropped, hwaiting]
      rfl
    have hall : delivered e.calls = e.ring.pushed := hpopped.symm.trans (h.finished hf)
    refine ⟨?_, hdropped.symm, hall⟩
    rw [hevents, emitted, hwaiting, CallbackPc.left, List.append_nil, List.length_map, ← hlen,
      hprocessed, hall, hdropped]

end LiveEngine

end Lob
