import LobMarketMaker.Foundation.BoundedFifo
import Mathlib.Data.Nat.Bitwise

/-!
# The single-producer single-consumer ring buffer

`push` and `pop` are cut into their individual steps, so that a list of `Action`s is a sequentially
consistent interleaving of the two threads. A thread's program counter holds its local variables.

* `pushStep`, `popStep`: one step of either thread;
* `pushed`, `popped`: the values for which `push` returned true and those `pop` returned, in order;
* `refused`, `missed`: for each `push` that returned false (`pop` that returned `nullopt`) the
  number of values held when the other side's index was reloaded.
-/

set_option autoImplicit false

namespace Lob

/-- The template parameter `Capacity` with its `static_assert`. -/
structure Capacity where
  size : ℕ
  one_lt : 1 < size
  pow_two : size &&& (size - 1) = 0

namespace Capacity

variable (cap : Capacity)

/-- The mask that takes an index back into the buffer. -/
def kMask : ℕ := cap.size - 1

/-- `capacity()`: the number of values the buffer can hold. -/
def capacity : ℕ := cap.size - 1

theorem size_pos : 0 < cap.size := Nat.lt_of_succ_lt cap.one_lt

theorem capacity_lt : cap.capacity + 1 = cap.size := Nat.sub_add_cancel cap.size_pos

theorem and_kMask (i : ℕ) : i &&& cap.kMask = i % cap.size := by
  obtain ⟨k, hk⟩ :=
    (Nat.and_sub_one_eq_zero_iff_isPowerOfTwo (Nat.ne_of_gt cap.size_pos)).mp cap.pow_two
  unfold kMask
  rw [hk, Nat.and_two_pow_sub_one_eq_mod]

end Capacity

/-- Where the producer stands inside `push`. -/
inductive ProducerPc (T : Type) where
  | idle
  /-- `head` is read, `next` computed; the first test comes. -/
  | test (value : T) (head next : ℕ)
  | refresh (value : T) (head next : ℕ)
  | retest (value : T) (head next held : ℕ)
  | write (value : T) (head next : ℕ)
  | publish (value : T) (next : ℕ)

/-- Where the consumer stands inside `pop`. -/
inductive ConsumerPc (T : Type) where
  | idle
  | test (tail : ℕ)
  | refresh (tail : ℕ)
  | retest (tail held : ℕ)
  | read (tail : ℕ)
  | publish (tail : ℕ) (value : T)

/-- The buffer, its four indices, the two threads, and the history of the calls. -/
structure SpscRingBuffer (T : Type) where
  buffer : List T
  head : ℕ := 0
  cachedTail : ℕ := 0
  tail : ℕ := 0
  cachedHead : ℕ := 0
  producer : ProducerPc T := .idle
  consumer : ConsumerPc T := .idle
  pushed : List T := []
  popped : List T := []
  refused : List (T × ℕ) := []
  missed : List ℕ := []

/-- A step of one of the threads. An idle producer starts `push(value)`. -/
inductive Action (T : Type) where
  | producer (value : T)
  | consumer

namespace SpscRingBuffer

variable {T : Type} (cap : Capacity)

/-- The constructor: `buffer_(Capacity)`. -/
def new [Inhabited T] : SpscRingBuffer T where
  buffer := List.replicate cap.size default

/-- The number of values held. -/
def held (s : SpscRingBuffer T) : ℕ := s.pushed.length - s.popped.length

/-- One step of `push`; both overloads do the same to the buffer. -/
def pushStep (value : T) (s : SpscRingBuffer T) : SpscRingBuffer T :=
  match s.producer with
  | .idle => { s with producer := .test value s.head ((s.head + 1) &&& cap.kMask) }
  | .test value head next =>
    if next = s.cachedTail then { s with producer := .refresh value head next }
    else { s with producer := .write value head next }
  | .refresh value head next =>
    { s with cachedTail := s.tail, producer := .retest value head next s.held }
  | .retest value head next held =>
    if next = s.cachedTail then
      { s with producer := .idle, refused := s.refused ++ [(value, held)] }
    else { s with producer := .write value head next }
  | .write value head next =>
    { s with buffer := s.buffer.set head value, producer := .publish value next }
  | .publish value next =>
    { s with head := next, producer := .idle, pushed := s.pushed ++ [value] }

/-- One step of `pop`; `moved v` is what `std::move` leaves of `v` in its slot. -/
def popStep [Inhabited T] (moved : T → T) (s : SpscRingBuffer T) : SpscRingBuffer T :=
  match s.consumer with
  | .idle => { s with consumer := .test s.tail }
  | .test tail =>
    if tail = s.cachedHead then { s with consumer := .refresh tail }
    else { s with consumer := .read tail }
  | .refresh tail => { s with cachedHead := s.head, consumer := .retest tail s.held }
  | .retest tail held =>
    if tail = s.cachedHead then { s with consumer := .idle, missed := s.missed ++ [held] }
    else { s with consumer := .read tail }
  | .read tail =>
    { s with
      buffer := s.buffer.set tail (moved (s.buffer.getD tail default))
      consumer := .publish tail (s.buffer.getD tail default) }
  | .publish tail value =>
    { s with
      tail := (tail + 1) &&& cap.kMask, consumer := .idle, popped := s.popped ++ [value] }

/-- A step of the thread that the action names. -/
def step [Inhabited T] (moved : T → T) (s : SpscRingBuffer T) : Action T → SpscRingBuffer T
  | .producer value => pushStep cap value s
  | .consumer => popStep cap moved s

/-- `empty()`, both indices read at once. -/
def empty (s : SpscRingBuffer T) : Bool := s.head == s.tail

end SpscRingBuffer

end Lob
