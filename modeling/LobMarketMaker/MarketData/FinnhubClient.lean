import LobMarketMaker.MarketData.FinnhubParser
import LobMarketMaker.MarketData.Overlay
import Mathlib.Algebra.BigOperators.Group.List.Basic
import Mathlib.Algebra.Order.Ring.Nat

/-!
# The feed client

The WebSocket library delivers messages one at a time, from a thread of its own; `onMessage` is the
handler that `start()` registers. A text message may make it hand a batch of events to the callback.

* `handleTextMessage`, `onMessage`, `stop`: the operations of the class;
* `received`: the events handed over and the client after a list of messages;
* `tradesOf`, `attempts`: what a text message holds, whatever the client does with it;
* `Fed`: the client after any messages; `Fed.onMessage`: one more;
* **`client_exact`**: no tick is lost, numbers do not restart with the connection.
-/

set_option autoImplicit false

namespace Lob

open Foundation

/-- `ix::WebSocketMessage`; the last case stands for pings, pongs and fragments. -/
inductive WebSocketMessage where
  | opened
  | closed
  | errored
  | message (str : List UInt8)
  | other

/-- The members of the class that the messages change, and what it has sent. -/
structure FinnhubClient (F : Type) [Double F] where
  symbol : List UInt8
  connected : Bool := false
  everConnected : Bool := false
  reconnectCount : ℕ := 0
  messagesReceived : ℕ := 0
  malformedMessages : ℕ := 0
  adapter : TradeTapeAdapter F
  batch : List MarketEvent := []
  /-- The documents passed to `ws_->send`. -/
  sent : List (Json F) := []

/-- `subscribe`. -/
def kSubscribe : List UInt8 := [115, 117, 98, 115, 99, 114, 105, 98, 101]

/-- `symbol`. -/
def kSymbolKey : List UInt8 := [115, 121, 109, 98, 111, 108]

namespace FinnhubClient

variable {F : Type} [Double F] (parse : List UInt8 → Option (Json F))

/-- The constructor. -/
def new (symbol : List UInt8) (syntheticSpread : F) : FinnhubClient F where
  symbol := symbol
  adapter := .new syntheticSpread

/-- `json sub`, with its members in the order of their names. -/
def sub (symbol : List UInt8) : Json F :=
  .object [(kSymbolKey, .string symbol), (kType, .string kSubscribe)]

/-- The events handed to the callback, one by one, and the client afterwards. -/
def handleTextMessage (c : FinnhubClient F) (payload : List UInt8) :
    List MarketEvent × FinnhubClient F :=
  let parsed := parseFinnhubMessage parse payload
  if parsed.status = .malformed then
    ([], { c with malformedMessages := c.malformedMessages + 1 })
  else
    let (batch, adapter) := parsed.trades.foldl TradeTapeAdapter.onTrade ([], c.adapter)
    (batch,
      { c with malformedMessages := c.malformedMessages + parsed.malformedTicks, batch, adapter })

/-- The handler of `setOnMessageCallback`. -/
def onMessage (c : FinnhubClient F) : WebSocketMessage → List MarketEvent × FinnhubClient F
  | .opened =>
    ([],
      { c with
        everConnected := true
        reconnectCount := if c.everConnected then c.reconnectCount + 1 else c.reconnectCount
        connected := true
        sent := c.sent ++ [sub c.symbol] })
  | .closed => ([], { c with connected := false })
  | .errored => ([], { c with connected := false })
  | .message str =>
    handleTextMessage parse { c with messagesReceived := c.messagesReceived + 1 } str
  | .other => ([], c)

/-- `stop()`, once the library has ended its thread. -/
def stop (c : FinnhubClient F) : FinnhubClient F := { c with connected := false }

/-- One more message, on the events handed over so far. -/
def receive (s : List MarketEvent × FinnhubClient F) (msg : WebSocketMessage) :
    List MarketEvent × FinnhubClient F :=
  let (events, c) := s.2.onMessage parse msg
  (s.1 ++ events, c)

/-- The events handed over in the course of the messages, and the client after them. -/
def received (symbol : List UInt8) (syntheticSpread : F) (msgs : List WebSocketMessage) :
    List MarketEvent × FinnhubClient F :=
  run (receive parse) ([], new symbol syntheticSpread) msgs

/-! ## What a message holds -/

/-- The trades of a message. -/
def tradesOf : WebSocketMessage → List (FinnhubTrade F)
  | .message str => (parseFinnhubMessage parse str).trades
  | _ => []

/-- What a message tries to report: each tick of a trade message, and a message that cannot be
read as one. -/
def attempts : WebSocketMessage → ℕ
  | .message str =>
    match parse str with
    | none => 1
    | some doc => if (parseDocument (some doc)).status = .malformed then 1 else (ticksOf doc).length
  | _ => 0

/-- What the client counts as malformed. -/
def rejects : WebSocketMessage → ℕ
  | .message str =>
    let parsed := parseFinnhubMessage parse str
    if parsed.status = .malformed then 1 else parsed.malformedTicks
  | _ => 0

/-- The message reports a connection. -/
def isOpened : WebSocketMessage → Bool
  | .opened => true
  | _ => false

/-- The message is a text. -/
def isMessage : WebSocketMessage → Bool
  | .message _ => true
  | _ => false

/-- What the message says about the connection. -/
def connection : WebSocketMessage → Option Bool
  | .opened => some true
  | .closed | .errored => some false
  | _ => none

end FinnhubClient

/-! ## Batches -/

namespace TradeTapeAdapter

variable {F : Type} [Double F]

theorem onTrade_append (out : List MarketEvent) (s : List MarketEvent × TradeTapeAdapter F)
    (trade : FinnhubTrade F) :
    onTrade (out ++ s.1, s.2) trade = (out ++ (onTrade s trade).1, (onTrade s trade).2) := by
  have hpush : ∀ (s : List MarketEvent × TradeTapeAdapter F) make,
      push (out ++ s.1, s.2) make = (out ++ (push s make).1, (push s make).2) := by
    intro s make
    unfold push
    rw [List.append_assoc]
  have hdelete : ∀ (s : List MarketEvent × TradeTapeAdapter F) ts symbol side old new,
      pushDelete ts symbol side old new (out ++ s.1, s.2) =
        (out ++ (pushDelete ts symbol side old new s).1,
          (pushDelete ts symbol side old new s).2) := by
    intro s ts symbol side old new
    unfold pushDelete
    cases old with
    | none => rfl
    | some px =>
      dsimp only
      split_ifs
      · exact hpush s _
      · rfl
  obtain ⟨events, a⟩ := s
  unfold onTrade
  dsimp only
  have h₀ := hpush (events, { a with lastPrice := some trade.price, lastSide := a.inferSide trade })
  dsimp only at h₀
  rw [h₀, hdelete, hdelete, hpush, hpush]

theorem onTrades_append (a : TradeTapeAdapter F) (trades more : List (FinnhubTrade F)) :
    onTrades a (trades ++ more) =
      ((onTrades a trades).1 ++ (onTrades (onTrades a trades).2 more).1,
        (onTrades (onTrades a trades).2 more).2) := by
  induction more using List.reverseRecOn with
  | nil => simp [onTrades, run]
  | append_singleton more t ih =>
    have h₁ : onTrades a (trades ++ (more ++ [t])) = onTrade (onTrades a (trades ++ more)) t := by
      rw [← List.append_assoc]
      exact run_concat _ _ _ _
    have h₂ : onTrades (onTrades a trades).2 (more ++ [t]) =
        onTrade (onTrades (onTrades a trades).2 more) t := run_concat _ _ _ _
    rw [h₁, ih, onTrade_append, h₂]

end TradeTapeAdapter

namespace FinnhubClient

variable {F : Type} [Double F] {parse : List UInt8 → Option (Json F)} {symbol : List UInt8}
  {spread : F}

/-! ## One message -/

theorem trades_of_malformed {doc : Option (Json F)} :
    (parseDocument doc).status = .malformed → (parseDocument doc).trades = [] := by
  cases doc with
  | none => exact fun _ => rfl
  | some doc =>
    unfold parseDocument
    dsimp only
    cases (doc.find kType).bind Json.string? with
    | none => exact fun _ => rfl
    | some type =>
      dsimp only
      by_cases htype : type ≠ kTrade
      · rw [if_pos htype]
        exact fun _ => rfl
      · rw [if_neg htype]
        cases (doc.find kData).bind Json.array? with
        | none => exact fun _ => rfl
        | some data =>
          -- the ticks do not change the status
          have hstatus : (run FinnhubParseResult.addTick
              ({ status := .trades } : FinnhubParseResult F) data).status = .trades := by
            refine run_invariant _ (P := fun r : FinnhubParseResult F => r.status = .trades)
              ?_ rfl _
            intro r tick hr
            unfold FinnhubParseResult.addTick
            split <;> exact hr
          intro h
          exact absurd (hstatus.symm.trans h) (by decide)

/-- **A text message**: its trades go to the adapter, and the rest is counted. -/
theorem handleTextMessage_eq (parse : List UInt8 → Option (Json F)) (c : FinnhubClient F)
    (str : List UInt8) :
    let batch := TradeTapeAdapter.onTrades c.adapter (tradesOf parse (.message str))
    (c.handleTextMessage parse str).1 = batch.1 ∧
      (c.handleTextMessage parse str).2 =
        { c with
          malformedMessages := c.malformedMessages + rejects parse (.message str)
          adapter := batch.2
          batch := (c.handleTextMessage parse str).2.batch } := by
  intro batch
  unfold handleTextMessage rejects
  dsimp only
  by_cases hm : (parseFinnhubMessage parse str).status = .malformed
  · have hnone : tradesOf parse (.message str) = [] := trades_of_malformed hm
    have hbatch : batch = ([], c.adapter) := congrArg (TradeTapeAdapter.onTrades c.adapter) hnone
    rw [if_pos hm, if_pos hm, hbatch]
    exact ⟨rfl, rfl⟩
  · rw [if_neg hm, if_neg hm]
    exact ⟨rfl, rfl⟩

theorem trades_add_rejects (parse : List UInt8 → Option (Json F)) (msg : WebSocketMessage) :
    (tradesOf parse msg).length + rejects parse msg = attempts parse msg := by
  cases msg with
  | message str =>
    unfold tradesOf rejects attempts parseFinnhubMessage
    dsimp only
    cases parse str with
    | none => rfl
    | some doc =>
      dsimp only
      by_cases hm : (parseDocument (some doc)).status = .malformed
      · rw [if_pos hm, if_pos hm, trades_of_malformed hm]
        rfl
      · rw [if_neg hm, if_neg hm]
        exact trades_add_malformed doc
  | opened => rfl
  | closed => rfl
  | errored => rfl
  | other => rfl

/-- All that a message does to the client. -/
structure Effect (parse : List UInt8 → Option (Json F)) (c : FinnhubClient F)
    (msg : WebSocketMessage) (events : List MarketEvent) (c' : FinnhubClient F) : Prop where
  symbol : c'.symbol = c.symbol
  tape : TradeTapeAdapter.onTrades c.adapter (tradesOf parse msg) = (events, c'.adapter)
  messagesReceived : c'.messagesReceived = c.messagesReceived + (isMessage msg).toNat
  malformedMessages : c'.malformedMessages = c.malformedMessages + rejects parse msg
  everConnected : c'.everConnected = (c.everConnected || isOpened msg)
  reconnectCount : c'.reconnectCount = c.reconnectCount + (c.everConnected && isOpened msg).toNat
  connected : c'.connected = (connection msg).getD c.connected
  sent : c'.sent = c.sent ++ if isOpened msg then [sub c.symbol] else []

theorem onMessage_effect (parse : List UInt8 → Option (Json F)) (c : FinnhubClient F)
    (msg : WebSocketMessage) :
    Effect parse c msg (c.onMessage parse msg).1 (c.onMessage parse msg).2 := by
  have hever : (c.everConnected || false) = c.everConnected := Bool.or_false _
  have hsent : c.sent ++ [] = c.sent := List.append_nil _
  have hidle : c.reconnectCount + (c.everConnected && false).toNat = c.reconnectCount := by
    rw [Bool.and_false]
    rfl
  cases msg with
  | message str =>
    obtain ⟨hevents, hc⟩ := handleTextMessage_eq parse
      { c with messagesReceived := c.messagesReceived + 1 } str
    unfold onMessage
    dsimp only at hc ⊢
    rw [hevents, hc]
    exact ⟨rfl, rfl, rfl, rfl, hever.symm, hidle.symm, rfl, hsent.symm⟩
  | opened =>
    refine ⟨rfl, rfl, rfl, rfl, (Bool.or_true _).symm, ?_, rfl, rfl⟩
    show (if c.everConnected then c.reconnectCount + 1 else c.reconnectCount) = _
    cases c.everConnected <;> rfl
  | closed => exact ⟨rfl, rfl, rfl, rfl, hever.symm, hidle.symm, rfl, hsent.symm⟩
  | errored => exact ⟨rfl, rfl, rfl, rfl, hever.symm, hidle.symm, rfl, hsent.symm⟩
  | other => exact ⟨rfl, rfl, rfl, rfl, hever.symm, hidle.symm, rfl, hsent.symm⟩

/-! ## Any messages -/

/-- The events handed over and the client, after the messages. -/
structure Fed (parse : List UInt8 → Option (Json F)) (symbol : List UInt8) (spread : F)
    (msgs : List WebSocketMessage) (s : List MarketEvent × FinnhubClient F) : Prop where
  symbol_eq : s.2.symbol = symbol
  tape : TradeTapeAdapter.onTrades (.new spread) (msgs.flatMap (tradesOf parse)) =
    (s.1, s.2.adapter)
  messagesReceived : s.2.messagesReceived = msgs.countP isMessage
  malformedMessages : s.2.malformedMessages = (msgs.map (rejects parse)).sum
  everConnected : s.2.everConnected = msgs.any isOpened
  reconnectCount : s.2.reconnectCount = msgs.countP isOpened - 1
  connected : s.2.connected = ((msgs.filterMap connection).getLast?).getD false
  sent : s.2.sent = List.replicate (msgs.countP isOpened) (sub symbol)

variable {msgs : List WebSocketMessage} {s : List MarketEvent × FinnhubClient F}

theorem fed_new : Fed parse symbol spread [] ([], new symbol spread) where
  symbol_eq := rfl
  tape := rfl
  messagesReceived := rfl
  malformedMessages := rfl
  everConnected := rfl
  reconnectCount := rfl
  connected := rfl
  sent := rfl

theorem countP_concat (p : WebSocketMessage → Bool) (msgs : List WebSocketMessage)
    (msg : WebSocketMessage) : (msgs ++ [msg]).countP p = msgs.countP p + (p msg).toNat := by
  rw [List.countP_append, List.countP_singleton]
  cases p msg <;> rfl

/-- **Step lemma.** -/
theorem Fed.receive (h : Fed parse symbol spread msgs s) (msg : WebSocketMessage) :
    Fed parse symbol spread (msgs ++ [msg]) (FinnhubClient.receive parse s msg) := by
  obtain ⟨events, c⟩ := s
  have he := onMessage_effect parse c msg
  have htape := h.tape
  have hopens := h.reconnectCount
  have hever := h.everConnected
  dsimp only at htape hopens hever
  constructor <;> dsimp only [FinnhubClient.receive]
  · exact he.symbol.trans h.symbol_eq
  · rw [List.flatMap_append, List.flatMap_singleton, TradeTapeAdapter.onTrades_append, htape,
      he.tape]
  · rw [he.messagesReceived, countP_concat, h.messagesReceived]
  · rw [he.malformedMessages, List.map_append, List.sum_append, h.malformedMessages,
      List.map_singleton, List.sum_singleton]
  · rw [he.everConnected, List.any_append, hever, List.any_cons, List.any_nil, Bool.or_false]
  · rw [he.reconnectCount, countP_concat, hopens, hever]
    have hany : msgs.any isOpened = true ↔ 0 < msgs.countP isOpened := by
      rw [List.any_eq_true, List.countP_pos_iff]
    cases hm : isOpened msg with
    | false => rw [Bool.and_false]; rfl
    | true =>
      cases ho : msgs.any isOpened with
      | true =>
        have := hany.mp ho
        simp only [Bool.and_self, Bool.toNat_true]
        omega
      | false =>
        have := mt hany.mpr (by rw [ho]; exact Bool.false_ne_true)
        simp only [Bool.false_and, Bool.toNat_false, Bool.toNat_true]
        omega
  · rw [he.connected, List.filterMap_append, h.connected]
    cases hm : connection msg with
    | none => rw [List.filterMap_cons_none hm, List.filterMap_nil, List.append_nil]; rfl
    | some b =>
      rw [List.filterMap_cons_some hm, List.filterMap_nil, List.getLast?_concat]
      rfl
  · rw [he.sent, countP_concat, h.sent, h.symbol_eq]
    cases isOpened msg with
    | false => exact List.append_nil _
    | true => exact List.replicate_succ'.symm

/-- **Run lemma.** -/
theorem fed_received (parse : List UInt8 → Option (Json F)) (symbol : List UInt8) (spread : F)
    (msgs : List WebSocketMessage) :
    Fed parse symbol spread msgs (received parse symbol spread msgs) :=
  run_history _ (P := fun msgs s => Fed parse symbol spread msgs s) fed_new
    (fun _ _ msg h => h.receive msg) msgs

theorem sum_attempts (parse : List UInt8 → Option (Json F)) (msgs : List WebSocketMessage) :
    (msgs.flatMap (tradesOf parse)).length + (msgs.map (rejects parse)).sum =
      (msgs.map (attempts parse)).sum := by
  induction msgs with
  | nil => rfl
  | cons msg msgs ih =>
    have hmsg := trades_add_rejects parse msg
    rw [List.flatMap_cons, List.length_append, List.map_cons, List.map_cons, List.sum_cons,
      List.sum_cons]
    omega

/-- **The client over any messages**, whatever connections are lost and made and whatever texts
arrive: the events handed over are those of one tape of the ticks that are trades, numbered from 1
without a gap; every tick is on the tape or is counted as malformed, as is every text that cannot be
read; a subscription is sent for each connection, and all but the first are reconnections. -/
theorem client_exact (parse : List UInt8 → Option (Json F)) (symbol : List UInt8) (spread : F)
    (msgs : List WebSocketMessage) :
    let events := (received parse symbol spread msgs).1
    let c := (received parse symbol spread msgs).2
    let trades := msgs.flatMap (tradesOf parse)
    events = (TradeTapeAdapter.onTrades (.new spread) trades).1 ∧
    events.map MarketEvent.sequence = List.range' 1 events.length ∧
    trades.length + c.malformedMessages = (msgs.map (attempts parse)).sum ∧
    c.messagesReceived = msgs.countP isMessage ∧
    c.reconnectCount = msgs.countP isOpened - 1 ∧
    c.sent = List.replicate (msgs.countP isOpened) (sub symbol) ∧
    c.connected = ((msgs.filterMap connection).getLast?).getD false := by
  intro events c trades
  have h := fed_received parse symbol spread msgs
  have htape : TradeTapeAdapter.onTrades (.new spread) trades = (events, c.adapter) := h.tape
  obtain ⟨o, ho, -, -⟩ := TradeTapeAdapter.onTrades_emitted (fun _ _ => True) (Symbol.ofView symbol)
    spread trades fun _ _ => trivial
  have hsequences := ho.sequences
  rw [htape] at hsequences
  have hmalformed : c.malformedMessages = (msgs.map (rejects parse)).sum := h.malformedMessages
  refine ⟨(congrArg Prod.fst htape).symm, hsequences, ?_, h.messagesReceived, h.reconnectCount,
    h.sent, h.connected⟩
  rw [hmalformed]
  exact sum_attempts parse msgs

end FinnhubClient

end Lob
