import Mathlib.Data.List.Basic

/-!
# The object pool

A fixed row of slots; a slot is a union of an object and a link to the next free slot. A pointer to
a slot, or to the object in it, is the slot's index in `storage`, and the null pointer `none`.
-/

set_option autoImplicit false

namespace Lob

/-- `union Slot`: one member is active, or none yet. -/
inductive Slot (T : Type) where
  | uninitialized
  | value (x : T)
  | nextFree (p : Option ℕ)
  deriving DecidableEq

/-- The member `next_free` of a slot. Where another member is active its bytes are read as a
pointer, which gives whatever `bits` says. -/
def Slot.next {T : Type} (bits : Option T → Option ℕ) : Slot T → Option ℕ
  | .uninitialized => bits none
  | .value x => bits (some x)
  | .nextFree p => p

/-- The members of the class; pointers are slot numbers. -/
structure ObjectPool (T : Type) where
  storage : List (Slot T)
  capacity : ℕ
  freeHead : Option ℕ := none
  liveCount : ℕ := 0
  exhaustedCount : ℕ := 0
  deriving DecidableEq

namespace ObjectPool

variable {T : Type}

/-- The loop of the constructor. -/
def linkSlots (storage : List (Slot T)) (n : ℕ) : List (Slot T) :=
  (List.range n).foldl (fun storage i => storage.set i (.nextFree (some (i + 1)))) storage

/-- The constructor: every slot linked to its right neighbour, the last one to none. -/
def new (capacity : ℕ) : ObjectPool T :=
  let storage := linkSlots (List.replicate capacity .uninitialized) (capacity - 1)
  if capacity > 0 then
    { storage := storage.set (capacity - 1) (.nextFree none)
      capacity := capacity
      freeHead := some 0 }
  else { storage := storage, capacity := capacity }

variable (p : ObjectPool T)

/-- The contents of slot `i`. -/
def slot (i : ℕ) : Slot T := p.storage.getD i .uninitialized

/-- Takes the first free slot and constructs `x` in it; null when there is none. -/
def acquire (bits : Option T → Option ℕ) (x : T) : Option ℕ × ObjectPool T :=
  match p.freeHead with
  | none => (none, { p with exhaustedCount := p.exhaustedCount + 1 })
  | some slot =>
    (some slot,
      { p with
        storage := p.storage.set slot (.value x)
        freeHead := (p.slot slot).next bits
        liveCount := p.liveCount + 1 })

/-- Puts a slot back at the head of the free list. -/
def release (obj : Option ℕ) : ObjectPool T :=
  match obj with
  | none => p
  | some slot =>
    { p with
      storage := p.storage.set slot (.nextFree p.freeHead)
      freeHead := some slot
      liveCount := p.liveCount - 1 }

/-- An owner assigns to the object it has acquired. -/
def write (slot : ℕ) (x : T) : ObjectPool T := { p with storage := p.storage.set slot (.value x) }

end ObjectPool

end Lob
