import LobMarketMaker.Concurrency.Calls
import LobMarketMaker.MarketData.FinnhubClient
import LobMarketMaker.Pipeline.Model

/-!
# The live engine

`run_live` has two threads. The feed's callback thread hands every event of a message to `ring.push`
and counts the ones that are refused; the main thread pops and processes until its time is up, stops
the client and drains the ring. A list of `LiveAction`s is an interleaving of their steps, down to
the single accesses of the ring's indices; what a thread does between two of these is its own.

* `CallbackPc`, `MainPc`: where the two threads stand;
* `callbackStep`, `mainStep`, `liveStep`: one step of either thread;
* `live`: the engine after an interleaving.
-/

set_option autoImplicit false

namespace Lob

open Foundation

instance : Inhabited MarketEvent := ⟨{}⟩

/-- `SpscRingBuffer<MarketEvent, 1 << 16>`. -/
def ringCapacity : Capacity where
  size := 1 <<< 16
  one_lt := by decide
  pow_two := by decide

/-- Where the callback thread stands in `handle_text_message`. -/
inductive CallbackPc where
  | waiting
  /-- In `ring.push(ev)`, with the rest of the batch to come. -/
  | pushing (ev : MarketEvent) (rest : List MarketEvent)
  /-- `push` has returned false; `dropped.fetch_add` comes. -/
  | counting (rest : List MarketEvent)
  deriving DecidableEq

/-- The loop over the batch. -/
def CallbackPc.next : List MarketEvent → CallbackPc
  | [] => .waiting
  | ev :: rest => .pushing ev rest

/-- Where the main thread stands in `run_live`. -/
inductive MainPc where
  /-- The condition of the outer loop. -/
  | loop
  /-- In `ring.pop()`. -/
  | poll
  | handle (ev : MarketEvent)
  | clock
  /-- `client.stop()`, which waits for the callback thread. -/
  | stop
  /-- In the `ring.pop()` of the last loop. -/
  | drain
  | drainHandle (ev : MarketEvent)
  | finished
  deriving DecidableEq

/-- The locals of `run_live`, the two threads, and the history of what they did. -/
structure LiveEngine (F : Type) [Double F] where
  client : FinnhubClient F
  ring : SpscRingBuffer MarketEvent := .new ringCapacity
  dropped : ℕ := 0
  pipeline : Pipeline F
  callback : CallbackPc := .waiting
  main : MainPc := .loop
  /-- `client.stop()` has returned. -/
  stopped : Bool := false
  messages : List WebSocketMessage := []
  /-- The events given to the callback, with what `push` returned. -/
  handed : List (MarketEvent × Bool) := []
  calls : List Call := []

/-- A step of one of the threads, with what it reads from outside: the message that arrives; whether
the loop goes on, and the time. -/
inductive LiveAction where
  | callback (msg : WebSocketMessage)
  | main (go : Bool) (now : Timestamp)

namespace LiveEngine

variable {F : Type} [Double F]

/-- Both threads at the start of their loops. -/
def new (symbol : List UInt8) (syntheticSpread : F) (cfg : PipelineConfig F) : LiveEngine F where
  client := .new symbol syntheticSpread
  pipeline := .new (Symbol.ofView symbol) cfg

variable (parse : List UInt8 → Option (Json F)) (host : Host F) (e : LiveEngine F)

/-- A step of the thread of the WebSocket library, inside or outside the callback. -/
def callbackStep (msg : WebSocketMessage) : LiveEngine F :=
  match e.callback with
  | .waiting =>
    if e.stopped then e
    else
      let (batch, client) := e.client.onMessage parse msg
      { e with client, callback := .next batch, messages := e.messages ++ [msg] }
  | .pushing ev rest =>
    let ring := e.ring.pushStep ringCapacity ev
    match e.ring.pushReturns with
    | none => { e with ring }
    | some true => { e with ring, callback := .next rest, handed := e.handed ++ [(ev, true)] }
    | some false =>
      { e with ring, callback := .counting rest, handed := e.handed ++ [(ev, false)] }
  | .counting rest => { e with dropped := e.dropped + 1, callback := .next rest }

/-- A step of `ring.pop()`; once it returns, the thread goes on with the event or without one. -/
def popStep (found : MarketEvent → MainPc) (empty : MainPc) : LiveEngine F :=
  let ring := e.ring.popStep ringCapacity id
  match e.ring.popReturns with
  | none => { e with ring }
  | some (some ev) => { e with ring, main := found ev }
  | some none => { e with ring, main := empty }

/-- A call of the pipeline. -/
def call (c : Call) (main : MainPc) : LiveEngine F :=
  { e with pipeline := e.pipeline.call host c, main, calls := e.calls ++ [c] }

/-- A step of the thread of `run_live`. -/
def mainStep (go : Bool) (now : Timestamp) : LiveEngine F :=
  match e.main with
  | .loop => { e with main := if go then .poll else .stop }
  | .poll => e.popStep .handle .clock
  | .handle ev => e.call host (.process ev) .poll
  | .clock => e.call host (.onClock now) .loop
  | .stop =>
    if e.callback = .waiting then
      { e with client := e.client.stop, stopped := true, main := .drain }
    else e
  | .drain => e.popStep .drainHandle .finished
  | .drainHandle ev => e.call host (.process ev) .drain
  | .finished => e

/-- A step of the thread that the action names. -/
def liveStep (e : LiveEngine F) : LiveAction → LiveEngine F
  | .callback msg => e.callbackStep parse msg
  | .main go now => e.mainStep host go now

/-- The engine after an interleaving. -/
def live (symbol : List UInt8) (syntheticSpread : F) (cfg : PipelineConfig F)
    (actions : List LiveAction) : LiveEngine F :=
  run (liveStep parse host) (new symbol syntheticSpread cfg) actions

end LiveEngine

end Lob
