import LobMarketMaker.Concurrency.Refinement

/-!
# Calls of the ring buffer

A `push` or `pop` is the run of a thread between two of its `idle` states.

* `pushReturns`, `popReturns`: what the next step of the thread returns, if it ends the call;
* `pushStep_effect`, `popStep_effect`: what a step does to the history, by what it returns;
* `Ledger`, `Budget`: a call is at most six steps of its thread and at least four;
  `step_budget`, `run_budget`: one step and whole runs;
* **`wait_free`**: whatever the other thread does, each call ends within six steps of its own.
-/

set_option autoImplicit false

namespace Lob

open Foundation

/-- The step is the producer's. -/
def Action.isProducer {T : Type} : Action T → Bool
  | .producer _ => true
  | .consumer => false

/-- The step is the consumer's. -/
def Action.isConsumer {T : Type} : Action T → Bool
  | .producer _ => false
  | .consumer => true

namespace SpscRingBuffer

variable {T : Type}

/-! ## What a step returns -/

/-- The argument of the `push` that is running. -/
def pushing (s : SpscRingBuffer T) : Option T :=
  match s.producer with
  | .idle => none
  | .test value _ _ | .refresh value _ _ | .retest value _ _ _ | .write value _ _
  | .publish value _ => some value

/-- The result of `push`, if the producer's next step returns it. -/
def pushReturns (s : SpscRingBuffer T) : Option Bool :=
  match s.producer with
  | .retest _ _ next _ => if next = s.cachedTail then some false else none
  | .publish _ _ => some true
  | _ => none

/-- The result of `pop`, if the consumer's next step returns it. -/
def popReturns (s : SpscRingBuffer T) : Option (Option T) :=
  match s.consumer with
  | .retest tail _ => if tail = s.cachedHead then some none else none
  | .publish _ value => some (some value)
  | _ => none

/-- What a step of the producer leaves alone. -/
structure SameConsumer (s s' : SpscRingBuffer T) : Prop where
  consumer : s'.consumer = s.consumer
  popped : s'.popped = s.popped
  missed : s'.missed = s.missed

/-- What a step of the consumer leaves alone. -/
structure SameProducer (s s' : SpscRingBuffer T) : Prop where
  producer : s'.producer = s.producer
  pushed : s'.pushed = s.pushed
  refused : s'.refused = s.refused

/-- The producer has made a step of `push(value)`, which returns `result`, or nothing yet. -/
def PushEffect (value : T) (s s' : SpscRingBuffer T) : Option Bool → Prop
  | none => s'.pushing = some value ∧ s'.pushed = s.pushed ∧ s'.refused = s.refused
  | some true =>
    s'.producer = .idle ∧ s'.pushed = s.pushed ++ [value] ∧ s'.refused = s.refused
  | some false =>
    s'.producer = .idle ∧ s'.pushed = s.pushed ∧ ∃ n, s'.refused = s.refused ++ [(value, n)]

/-- The consumer has made a step of `pop()`, which returns `result`, or nothing yet. -/
def PopEffect (s s' : SpscRingBuffer T) : Option (Option T) → Prop
  | none => s'.consumer ≠ .idle ∧ s'.popped = s.popped ∧ s'.missed = s.missed
  | some (some v) =>
    s'.consumer = .idle ∧ s'.popped = s.popped ++ [v] ∧ s'.missed = s.missed
  | some none =>
    s'.consumer = .idle ∧ s'.popped = s.popped ∧
      ∃ tail n, s.consumer = .retest tail n ∧ s'.missed = s.missed ++ [n]

variable (cap : Capacity) (moved : T → T)

theorem pushStep_sameConsumer (value : T) (s : SpscRingBuffer T) :
    SameConsumer s (s.pushStep cap value) := by
  unfold pushStep
  cases s.producer with
  | idle => exact ⟨rfl, rfl, rfl⟩
  | test v head next => dsimp only; split_ifs <;> exact ⟨rfl, rfl, rfl⟩
  | refresh v head next => exact ⟨rfl, rfl, rfl⟩
  | retest v head next n => dsimp only; split_ifs <;> exact ⟨rfl, rfl, rfl⟩
  | write v head next => exact ⟨rfl, rfl, rfl⟩
  | publish v next => exact ⟨rfl, rfl, rfl⟩

theorem popStep_sameProducer [Inhabited T] (s : SpscRingBuffer T) :
    SameProducer s (s.popStep cap moved) := by
  unfold popStep
  cases s.consumer with
  | idle => exact ⟨rfl, rfl, rfl⟩
  | test tail => dsimp only; split_ifs <;> exact ⟨rfl, rfl, rfl⟩
  | refresh tail => exact ⟨rfl, rfl, rfl⟩
  | retest tail n => dsimp only; split_ifs <;> exact ⟨rfl, rfl, rfl⟩
  | read tail => exact ⟨rfl, rfl, rfl⟩
  | publish tail v => exact ⟨rfl, rfl, rfl⟩

/-- **A step of `push`.** An idle producer starts with the argument it is given. -/
theorem pushStep_effect (value : T) (s : SpscRingBuffer T) :
    PushEffect (s.pushing.getD value) s (s.pushStep cap value) s.pushReturns := by
  unfold pushing pushReturns pushStep
  cases s.producer with
  | idle => exact ⟨rfl, rfl, rfl⟩
  | test v head next => dsimp only; split_ifs <;> exact ⟨rfl, rfl, rfl⟩
  | refresh v head next => exact ⟨rfl, rfl, rfl⟩
  | retest v head next n =>
    dsimp only
    split_ifs
    · exact ⟨rfl, rfl, n, rfl⟩
    · exact ⟨rfl, rfl, rfl⟩
  | write v head next => exact ⟨rfl, rfl, rfl⟩
  | publish v next => exact ⟨rfl, rfl, rfl⟩

theorem popStep_effect [Inhabited T] (s : SpscRingBuffer T) :
    PopEffect s (s.popStep cap moved) s.popReturns := by
  unfold popReturns popStep
  cases hs : s.consumer with
  | idle => exact ⟨nofun, rfl, rfl⟩
  | test tail => dsimp only; split_ifs <;> exact ⟨nofun, rfl, rfl⟩
  | refresh tail => exact ⟨nofun, rfl, rfl⟩
  | retest tail n =>
    dsimp only
    split_ifs
    · exact ⟨rfl, rfl, tail, n, hs, rfl⟩
    · exact ⟨nofun, rfl, rfl⟩
  | read tail => exact ⟨nofun, rfl, rfl⟩
  | publish tail v => exact ⟨rfl, rfl, rfl⟩

/-! ## The steps of a call -/

/-- A thread's calls that have returned, the steps that the running one still has to make at most,
and those that it has made at least. -/
structure Ledger where
  calls : ℕ
  left : ℕ
  made : ℕ

/-- The ledger of the producer. -/
def pushLedger (s : SpscRingBuffer T) : Ledger :=
  let calls := s.pushed.length + s.refused.length
  match s.producer with
  | .idle => ⟨calls, 6, 0⟩
  | .test _ _ _ => ⟨calls, 5, 1⟩
  | .refresh _ _ _ => ⟨calls, 4, 2⟩
  | .retest _ _ _ _ => ⟨calls, 3, 3⟩
  | .write _ _ _ => ⟨calls, 2, 2⟩
  | .publish _ _ => ⟨calls, 1, 3⟩

/-- The ledger of the consumer. -/
def popLedger (s : SpscRingBuffer T) : Ledger :=
  let calls := s.popped.length + s.missed.length
  match s.consumer with
  | .idle => ⟨calls, 6, 0⟩
  | .test _ => ⟨calls, 5, 1⟩
  | .refresh _ => ⟨calls, 4, 2⟩
  | .retest _ _ => ⟨calls, 3, 3⟩
  | .read _ => ⟨calls, 2, 2⟩
  | .publish _ _ => ⟨calls, 1, 3⟩

/-- A call pays for six steps and asks for four. -/
structure Budget (steps : ℕ) (l l' : Ledger) : Prop where
  most : steps + l'.left + 6 * l.calls ≤ l.left + 6 * l'.calls
  least : 4 * l'.calls + l'.made ≤ steps + l.made + 4 * l.calls

theorem Budget.refl (l : Ledger) : Budget 0 l l := ⟨by omega, by omega⟩

theorem pushStep_budget (value : T) (s : SpscRingBuffer T) :
    Budget 1 s.pushLedger (s.pushStep cap value).pushLedger := by
  unfold pushStep pushLedger
  cases s.producer with
  | idle => constructor <;> dsimp only <;> omega
  | test v head next => dsimp only; split_ifs <;> constructor <;> dsimp only <;> omega
  | refresh v head next => constructor <;> dsimp only <;> omega
  | retest v head next n =>
    dsimp only
    split_ifs
    · constructor <;> simp only [List.length_append, List.length_singleton] <;> omega
    · constructor <;> dsimp only <;> omega
  | write v head next => constructor <;> dsimp only <;> omega
  | publish v next =>
    constructor <;> simp only [List.length_append, List.length_singleton] <;> omega

theorem popStep_budget [Inhabited T] (s : SpscRingBuffer T) :
    Budget 1 s.popLedger (s.popStep cap moved).popLedger := by
  unfold popStep popLedger
  cases s.consumer with
  | idle => constructor <;> dsimp only <;> omega
  | test tail => dsimp only; split_ifs <;> constructor <;> dsimp only <;> omega
  | refresh tail => constructor <;> dsimp only <;> omega
  | retest tail n =>
    dsimp only
    split_ifs
    · constructor <;> simp only [List.length_append, List.length_singleton] <;> omega
    · constructor <;> dsimp only <;> omega
  | read tail => constructor <;> dsimp only <;> omega
  | publish tail v =>
    constructor <;> simp only [List.length_append, List.length_singleton] <;> omega

theorem pushLedger_calls (s : SpscRingBuffer T) :
    s.pushLedger.calls = s.pushed.length + s.refused.length := by
  unfold pushLedger
  cases s.producer <;> rfl

theorem popLedger_calls (s : SpscRingBuffer T) :
    s.popLedger.calls = s.popped.length + s.missed.length := by
  unfold popLedger
  cases s.consumer <;> rfl

theorem pushStep_left (value : T) {s : SpscRingBuffer T} (h : s.pushReturns = none) :
    (s.pushStep cap value).pushLedger.left + 1 ≤ s.pushLedger.left := by
  have hmost := (pushStep_budget cap value s).most
  have heffect := pushStep_effect cap value s
  rw [h] at heffect
  rw [pushLedger_calls, pushLedger_calls, heffect.2.1, heffect.2.2] at hmost
  omega

theorem popStep_left [Inhabited T] {s : SpscRingBuffer T} (h : s.popReturns = none) :
    (s.popStep cap moved).popLedger.left + 1 ≤ s.popLedger.left := by
  have hmost := (popStep_budget cap moved s).most
  have heffect := popStep_effect cap moved s
  rw [h] at heffect
  rw [popLedger_calls, popLedger_calls, heffect.2.1, heffect.2.2] at hmost
  omega

theorem SameConsumer.popLedger_eq {s s' : SpscRingBuffer T} (h : SameConsumer s s') :
    s'.popLedger = s.popLedger := by
  unfold popLedger
  rw [h.consumer, h.popped, h.missed]

theorem SameProducer.pushLedger_eq {s s' : SpscRingBuffer T} (h : SameProducer s s') :
    s'.pushLedger = s.pushLedger := by
  unfold pushLedger
  rw [h.producer, h.pushed, h.refused]

/-! ## Whole runs -/

/-- **Step lemma.** A step enters the ledger of its thread. -/
theorem step_budget [Inhabited T] (s : SpscRingBuffer T) (a : Action T) :
    Budget (if a.isProducer then 1 else 0) s.pushLedger (step cap moved s a).pushLedger ∧
      Budget (if a.isConsumer then 1 else 0) s.popLedger (step cap moved s a).popLedger := by
  cases a with
  | producer value =>
    refine ⟨pushStep_budget cap value s, ?_⟩
    have h := (pushStep_sameConsumer cap value s).popLedger_eq
    show Budget 0 _ (s.pushStep cap value).popLedger
    rw [h]
    exact .refl _
  | consumer =>
    refine ⟨?_, popStep_budget cap moved s⟩
    have h := (popStep_sameProducer cap moved s).pushLedger_eq
    show Budget 0 _ (s.popStep cap moved).pushLedger
    rw [h]
    exact .refl _

/-- A ledger's entries about the running call. -/
structure Ledger.Bounded (l : Ledger) : Prop where
  left_pos : 1 ≤ l.left
  left_le : l.left ≤ 6
  made_le : l.made ≤ 3

theorem pushLedger_bounded (s : SpscRingBuffer T) : s.pushLedger.Bounded := by
  unfold pushLedger
  cases s.producer <;> constructor <;> dsimp only <;> omega

theorem popLedger_bounded (s : SpscRingBuffer T) : s.popLedger.Bounded := by
  unfold popLedger
  cases s.consumer <;> constructor <;> dsimp only <;> omega

/-- **Run lemma.** If every step enters a ledger, the ledger counts the steps of a run. -/
theorem run_budget [Inhabited T] (ledger : SpscRingBuffer T → Ledger) (own : Action T → Bool)
    (hstep : ∀ s a, Budget (if own a then 1 else 0) (ledger s) (ledger (step cap moved s a)))
    (s : SpscRingBuffer T) (l : List (Action T)) :
    Budget (l.countP own) (ledger s) (ledger (run (step cap moved) s l)) := by
  have htrue : ∀ (s : SpscRingBuffer T) (a : Action T), True → True := fun _ _ h => h
  have hmost := countP_le_of_steps (step cap moved) own
    (fun s => 6 * ((ledger s).calls : ℤ) - (ledger s).left) htrue (fun s a _ => by
      have := (hstep s a).most
      split_ifs at this ⊢ <;> omega) (s := s) trivial l
  have hleast := le_countP_of_steps (step cap moved) own
    (fun s => 4 * ((ledger s).calls : ℤ) + (ledger s).made) htrue (fun s a _ => by
      have := (hstep s a).least
      split_ifs at this ⊢ <;> omega) (s := s) trivial l
  exact ⟨by omega, by omega⟩

/-- **Bounded wait-freedom.** In every interleaving, from any state and whatever the other thread
does: among any six steps of a thread one ends a call, and no call ends in fewer than four. -/
theorem wait_free [Inhabited T] (s : SpscRingBuffer T) (l : List (Action T)) :
    let s' := run (step cap moved) s l
    (l.countP Action.isProducer + 6 * s.pushLedger.calls ≤ 6 * s'.pushLedger.calls + 5 ∧
      4 * s'.pushLedger.calls ≤ l.countP Action.isProducer + 4 * s.pushLedger.calls + 3) ∧
    (l.countP Action.isConsumer + 6 * s.popLedger.calls ≤ 6 * s'.popLedger.calls + 5 ∧
      4 * s'.popLedger.calls ≤ l.countP Action.isConsumer + 4 * s.popLedger.calls + 3) := by
  intro s'
  have hpush : Budget _ s.pushLedger s'.pushLedger := run_budget cap moved pushLedger
    Action.isProducer (fun s a => (step_budget cap moved s a).1) s l
  have hpop : Budget _ s.popLedger s'.popLedger := run_budget cap moved popLedger
    Action.isConsumer (fun s a => (step_budget cap moved s a).2) s l
  obtain ⟨hmost, hleast⟩ := hpush
  obtain ⟨hmost', hleast'⟩ := hpop
  obtain ⟨-, hleft, hmade⟩ := pushLedger_bounded s
  obtain ⟨-, hleft', hmade'⟩ := popLedger_bounded s
  have hpos := (pushLedger_bounded s').left_pos
  have hpos' := (popLedger_bounded s').left_pos
  refine ⟨⟨?_, ?_⟩, ?_, ?_⟩ <;> omega

end SpscRingBuffer

end Lob
