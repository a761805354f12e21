import LobMarketMaker.Common.ObjectPool
import LobMarketMaker.Foundation.Linked
import LobMarketMaker.Foundation.Runs

/-!
# The free list of the object pool

The pool together with the slots that its owner holds. The owner releases, and writes to, only what
it holds; the values it writes may have any bits.

* `Op`, `Session`, `step`, `Lawful`: the calls of an owner;
* `Inv`: the free list and the slots held are together a permutation of all slots;
* `inv_new`, `inv_step`, `inv_run`: it holds throughout;
* **`freeList_sound`**: the free list is sound.
-/

set_option autoImplicit false

namespace Lob

open Foundation

namespace ObjectPool

variable {T : Type}

/-! ### The calls of an owner -/

/-- A call of `acquire` or `release`, or a write through a pointer handed out. -/
inductive Op (T : Type) where
  | acquire (x : T)
  | release (obj : Option ℕ)
  | write (slot : ℕ) (x : T)

/-- The pool and the slots acquired and not released since. -/
structure Session (T : Type) where
  pool : ObjectPool T
  live : List ℕ

variable (bits : Option T → Option ℕ)

/-- One call; what it hands out becomes live, what it takes back no longer is. -/
def step (s : Session T) : Op T → Session T
  | .acquire x =>
    match s.pool.acquire bits x with
    | (none, pool) => { s with pool := pool }
    | (some slot, pool) => { pool := pool, live := slot :: s.live }
  | .release none => { s with pool := s.pool.release none }
  | .release (some slot) => { pool := s.pool.release (some slot), live := s.live.erase slot }
  | .write slot x => { s with pool := s.pool.write slot x }

/-- Only what is held may be released or written to. -/
def Allowed (live : List ℕ) : Op T → Prop
  | .acquire _ => True
  | .release none => True
  | .release (some slot) => slot ∈ live
  | .write slot _ => slot ∈ live

/-- Every call is allowed when its turn comes. -/
def Lawful (s : Session T) : List (Op T) → Prop
  | [] => True
  | op :: ops => Allowed s.live op ∧ Lawful (step bits s op) ops

instance (live : List ℕ) : (op : Op T) → Decidable (Allowed live op)
  | .acquire _ => inferInstanceAs (Decidable True)
  | .release none => inferInstanceAs (Decidable True)
  | .release (some slot) => inferInstanceAs (Decidable (slot ∈ live))
  | .write slot _ => inferInstanceAs (Decidable (slot ∈ live))

instance decidableLawful (s : Session T) : (ops : List (Op T)) → Decidable (Lawful bits s ops)
  | [] => inferInstanceAs (Decidable True)
  | op :: ops =>
    have := decidableLawful (step bits s op) ops
    inferInstanceAs (Decidable (Allowed s.live op ∧ Lawful bits (step bits s op) ops))

/-- The links that the pool would follow. -/
def next (p : ObjectPool T) (i : ℕ) : Option ℕ := (p.slot i).next bits

theorem acquire_fst (p : ObjectPool T) (x : T) : (p.acquire bits x).1 = p.freeHead := by
  unfold acquire
  cases p.freeHead <;> rfl

variable {bits}

theorem step_acquire_none {s : Session T} (h : s.pool.freeHead = none) (x : T) :
    step bits s (.acquire x) =
      ⟨{ s.pool with exhaustedCount := s.pool.exhaustedCount + 1 }, s.live⟩ := by
  simp only [step, acquire, h]

theorem step_acquire_some {s : Session T} {i : ℕ} (h : s.pool.freeHead = some i) (x : T) :
    step bits s (.acquire x) =
      ⟨{ s.pool with
          storage := s.pool.storage.set i (.value x)
          freeHead := (s.pool.slot i).next bits
          liveCount := s.pool.liveCount + 1 }, i :: s.live⟩ := by
  rw [step, acquire, h]

variable (bits)

/-! ### One slot at a time -/

theorem slot_eq (p : ObjectPool T) (i : ℕ) :
    p.slot i = (p.storage[i]?).getD .uninitialized := List.getD_eq_getElem?_getD ..

theorem slot_set_self {p : ObjectPool T} {i : ℕ} (hi : i < p.storage.length) (v : Slot T) :
    ({ p with storage := p.storage.set i v } : ObjectPool T).slot i = v := by
  rw [slot_eq, List.getElem?_set_self hi]
  rfl

theorem slot_set_ne (p : ObjectPool T) {i j : ℕ} (h : j ≠ i) (v : Slot T) :
    ({ p with storage := p.storage.set i v } : ObjectPool T).slot j = p.slot j := by
  rw [slot_eq, slot_eq, List.getElem?_set_ne h.symm]

theorem linkSlots_succ (storage : List (Slot T)) (n : ℕ) :
    linkSlots storage (n + 1) = (linkSlots storage n).set n (.nextFree (some (n + 1))) := by
  rw [linkSlots, List.range_succ, List.foldl_append]
  rfl

theorem length_linkSlots (storage : List (Slot T)) (n : ℕ) :
    (linkSlots storage n).length = storage.length := by
  induction n with
  | zero => rfl
  | succ n ih => rw [linkSlots_succ, List.length_set, ih]

theorem getElem?_linkSlots {storage : List (Slot T)} {n i : ℕ} (hi : i < n)
    (hn : n ≤ storage.length) : (linkSlots storage n)[i]? = some (.nextFree (some (i + 1))) := by
  induction n with
  | zero => exact absurd hi (Nat.not_lt_zero i)
  | succ n ih =>
    rw [linkSlots_succ]
    rcases Nat.lt_succ_iff_lt_or_eq.mp hi with hi | rfl
    · rw [List.getElem?_set_ne hi.ne', ih hi (Nat.le_of_succ_le hn)]
    · refine List.getElem?_set_self ?_
      rwa [length_linkSlots]

theorem next_new {capacity i : ℕ} (hi : i < capacity) :
    (new capacity : ObjectPool T).next bits i =
      if i + 1 < capacity then some (i + 1) else none := by
  obtain ⟨n, rfl⟩ : ∃ n, capacity = n + 1 := ⟨capacity - 1, by omega⟩
  have hlen : (linkSlots (List.replicate (n + 1) (.uninitialized : Slot T)) n).length = n + 1 := by
    rw [length_linkSlots, List.length_replicate]
  have hslot : (new (n + 1) : ObjectPool T).slot i =
      .nextFree (if i + 1 < n + 1 then some (i + 1) else none) := by
    rw [slot_eq]
    rcases Nat.lt_succ_iff_lt_or_eq.mp hi with hi | rfl
    · have hget : (new (n + 1) : ObjectPool T).storage[i]? = some (.nextFree (some (i + 1))) := by
        refine (List.getElem?_set_ne (by omega)).trans (getElem?_linkSlots hi ?_)
        rw [List.length_replicate]
        omega
      rw [hget, if_pos (Nat.succ_lt_succ hi)]
      rfl
    · have hget : (new (i + 1) : ObjectPool T).storage[i]? = some (.nextFree none) := by
        refine List.getElem?_set_self ?_
        rw [Nat.add_sub_cancel, hlen]
        exact Nat.lt_succ_self i
      rw [hget, if_neg (lt_irrefl _)]
      rfl
  rw [next, hslot]
  rfl

/-! ### The invariant -/

/-- The free list `l` and the slots held are together all slots, each once; and what is held is
an object. -/
structure Inv (capacity : ℕ) (s : Session T) (l : List ℕ) : Prop where
  length : s.pool.storage.length = capacity
  capacity_eq : s.pool.capacity = capacity
  linked : Linked (s.pool.next bits) s.pool.freeHead l
  perm : (l ++ s.live).Perm (List.range capacity)
  liveCount : s.pool.liveCount = s.live.length
  objects : ∀ i ∈ s.live, ∃ x, s.pool.slot i = .value x

theorem inv_new (capacity : ℕ) :
    Inv bits capacity ⟨(new capacity : ObjectPool T), []⟩ (List.range capacity) := by
  have hlinked := linked_range' (fun i hi => next_new (T := T) bits hi) capacity 0 (Nat.zero_add _)
  rw [← List.range_eq_range'] at hlinked
  cases capacity with
  | zero =>
    exact ⟨rfl, rfl, rfl, List.Perm.refl _, rfl, fun i hi => absurd hi List.not_mem_nil⟩
  | succ n =>
    refine ⟨?_, rfl, hlinked, ?_, rfl, fun i hi => absurd hi List.not_mem_nil⟩
    · show (List.set _ _ _).length = n + 1
      rw [List.length_set, length_linkSlots, List.length_replicate]
    · rw [List.append_nil]

section Step

variable {bits} {capacity : ℕ} {s : Session T} {l : List ℕ} (h : Inv bits capacity s l)

include h

theorem Inv.lt_of_live {i : ℕ} (hi : i ∈ s.live) : i < capacity :=
  List.mem_range.mp (h.perm.subset (List.mem_append_right l hi))

theorem Inv.nodup : (l ++ s.live).Nodup := h.perm.nodup_iff.mpr List.nodup_range

theorem Inv.not_mem_of_live {i : ℕ} (hi : i ∈ s.live) : i ∉ l := fun hl =>
  (List.nodup_append.mp h.nodup).2.2 i hl i hi rfl

theorem Inv.linked_set {i : ℕ} (hi : i ∈ s.live) (v : Slot T) :
    Linked (({ s.pool with storage := s.pool.storage.set i v } : ObjectPool T).next bits)
      s.pool.freeHead l := by
  refine h.linked.congr fun j hj => ?_
  have hne : j ≠ i := fun heq => h.not_mem_of_live hi (heq ▸ hj)
  rw [next, slot_set_ne s.pool hne, next]

theorem inv_write {i : ℕ} (hi : i ∈ s.live) (x : T) :
    Inv bits capacity (step bits s (.write i x)) l where
  length := (List.length_set ..).trans h.length
  capacity_eq := h.capacity_eq
  linked := h.linked_set hi _
  perm := h.perm
  liveCount := h.liveCount
  objects j hj := by
    rcases eq_or_ne j i with rfl | hne
    · refine ⟨x, slot_set_self ?_ _⟩
      rw [h.length]
      exact h.lt_of_live hj
    · obtain ⟨y, hy⟩ := h.objects j hj
      exact ⟨y, (slot_set_ne s.pool hne _).trans hy⟩

theorem inv_release {i : ℕ} (hi : i ∈ s.live) :
    Inv bits capacity (step bits s (.release (some i))) (i :: l) where
  length := (List.length_set ..).trans h.length
  capacity_eq := h.capacity_eq
  linked := by
    refine h.linked.push (h.not_mem_of_live hi) ?_ fun j hj => ?_
    · have hslot : ((s.pool.release (some i)).slot i) = .nextFree s.pool.freeHead := by
        refine slot_set_self ?_ _
        rw [h.length]
        exact h.lt_of_live hi
      show ((s.pool.release (some i)).slot i).next bits = s.pool.freeHead
      rw [hslot]
      rfl
    · exact congrArg (Slot.next bits) (slot_set_ne s.pool hj _)
  perm := by
    have hback : (i :: l ++ s.live.erase i).Perm (l ++ i :: s.live.erase i) :=
      List.perm_middle.symm
    exact hback.trans (((List.perm_cons_erase hi).symm.append_left l).trans h.perm)
  liveCount := by
    show s.pool.liveCount - 1 = (s.live.erase i).length
    rw [List.length_erase_of_mem hi, h.liveCount]
  objects j hj := by
    have hnodup := (List.nodup_append.mp h.nodup).2.1
    obtain ⟨hne, hj⟩ := hnodup.mem_erase_iff.mp hj
    obtain ⟨y, hy⟩ := h.objects j hj
    exact ⟨y, (slot_set_ne s.pool hne _).trans hy⟩

theorem inv_acquire (x : T) : ∃ l', Inv bits capacity (step bits s (.acquire x)) l' := by
  cases l with
  | nil =>
    rw [step_acquire_none h.linked x]
    exact ⟨[], h.length, h.capacity_eq, h.linked, h.perm, h.liveCount, h.objects⟩
  | cons i l =>
    obtain ⟨hhead, hlinked⟩ := h.linked
    rw [step_acquire_some hhead x]
    have hi : i < capacity := List.mem_range.mp (h.perm.subset List.mem_cons_self)
    have hfresh : i ∉ l ++ s.live := (List.nodup_cons.mp h.nodup).1
    refine ⟨l, (List.length_set ..).trans h.length, h.capacity_eq, ?_, ?_, ?_, fun j hj => ?_⟩
    · refine hlinked.congr fun j hj => congrArg (Slot.next bits) (slot_set_ne s.pool ?_ _)
      exact fun heq => hfresh (List.mem_append_left _ (heq ▸ hj))
    · exact List.perm_middle.trans h.perm
    · exact congrArg (· + 1) h.liveCount
    · rcases List.mem_cons.mp hj with rfl | hj
      · exact ⟨x, slot_set_self (h.length.symm ▸ hi) _⟩
      · obtain ⟨y, hy⟩ := h.objects j hj
        have hne : j ≠ i := fun heq => hfresh (List.mem_append_right l (heq ▸ hj))
        exact ⟨y, (slot_set_ne s.pool hne _).trans hy⟩

/-- **Step lemma.** -/
theorem inv_step {op : Op T} (hop : Allowed s.live op) :
    ∃ l', Inv bits capacity (step bits s op) l' := by
  cases op with
  | acquire x => exact inv_acquire h x
  | release obj =>
    cases obj with
    | none => exact ⟨l, h⟩
    | some i => exact ⟨i :: l, inv_release h hop⟩
  | write i x => exact ⟨l, inv_write h hop x⟩

end Step

/-- **Run lemma.** -/
theorem inv_run {bits : Option T → Option ℕ} {capacity : ℕ} {s : Session T} {l : List ℕ}
    (h : Inv bits capacity s l) {ops : List (Op T)} (hops : Lawful bits s ops) :
    ∃ l', Inv bits capacity (run (step bits) s ops) l' := by
  induction ops generalizing s l with
  | nil => exact ⟨l, h⟩
  | cons op ops ih =>
    obtain ⟨l', h'⟩ := inv_step h hops.1
    exact ih h' hops.2

/-! ### What the pool promises -/

/-- What the free list of a pool promises its owner. -/
structure Sound (capacity : ℕ) (s : Session T) : Prop where
  /-- The free list ends and visits exactly the slots that are not held, each once. -/
  free : ∃ l, Linked (s.pool.next bits) s.pool.freeHead l ∧ l.Nodup ∧
    ∀ i, i ∈ l ↔ i < capacity ∧ i ∉ s.live
  held : s.live.Nodup ∧ ∀ i ∈ s.live, i < capacity
  count : s.pool.liveCount = s.live.length
  exhausted : s.pool.capacity = capacity ∧
    ∀ x, (s.pool.acquire bits x).1 = none ↔ s.pool.liveCount = s.pool.capacity
  fresh : ∀ x i, (s.pool.acquire bits x).1 = some i → i < capacity ∧ i ∉ s.live
  /-- A value written to a slot that is held changes no link. -/
  links : ∀ i ∈ s.live, ∀ x l, Linked (s.pool.next bits) s.pool.freeHead l →
    Linked ((s.pool.write i x).next bits) (s.pool.write i x).freeHead l

theorem Inv.sound {capacity : ℕ} {s : Session T} {l : List ℕ} (h : Inv bits capacity s l) :
    Sound bits capacity s := by
  have hmem (i : ℕ) : i ∈ l ↔ i < capacity ∧ i ∉ s.live := by
    rw [← List.mem_range, ← h.perm.mem_iff, List.mem_append]
    constructor
    · exact fun hi => ⟨.inl hi, fun hlive => h.not_mem_of_live hlive hi⟩
    · rintro ⟨hi | hi, hlive⟩
      · exact hi
      · exact absurd hi hlive
  have hlength : l.length + s.live.length = capacity := by
    rw [← List.length_append, h.perm.length_eq, List.length_range]
  constructor
  · exact ⟨l, h.linked, h.linked.nodup, hmem⟩
  · exact ⟨(List.nodup_append.mp h.nodup).2.1, fun i hi => h.lt_of_live hi⟩
  · exact h.liveCount
  · refine ⟨h.capacity_eq, fun x => ?_⟩
    rw [acquire_fst, h.liveCount, h.capacity_eq]
    cases l with
    | nil => exact iff_of_true h.linked ((Nat.zero_add _).symm.trans hlength)
    | cons i l =>
      rw [List.length_cons] at hlength
      refine iff_of_false ?_ (by omega)
      rw [h.linked.1]
      exact Option.some_ne_none i
  · intro x i hi
    rw [acquire_fst] at hi
    cases l with
    | nil => exact absurd (hi.symm.trans h.linked) (Option.some_ne_none i)
    | cons j l =>
      obtain rfl : i = j := Option.some.inj (hi.symm.trans h.linked.1)
      exact (hmem i).mp List.mem_cons_self
  · intro i hi x l' hl'
    rw [hl'.unique h.linked]
    exact h.linked_set hi _

/-- **The free list is sound** after all lawful calls, whatever the bits of the values written. -/
theorem freeList_sound (capacity : ℕ) {ops : List (Op T)}
    (hops : Lawful bits ⟨new capacity, []⟩ ops) :
    Sound bits capacity (run (step bits) ⟨new capacity, []⟩ ops) := by
  obtain ⟨l, h⟩ := inv_run (inv_new bits capacity) hops
  exact h.sound

/-- Two slots; the bits of every value read as a link of slot 0 to itself. -/
theorem freeList_sound_two : Sound (fun _ => some 0) 2 (run (step fun _ => some 0) ⟨new 2, []⟩
    [.acquire 7, .acquire 8, .acquire 9, .write 0 5, .release (some 0), .release none,
      .acquire 6]) :=
  freeList_sound (fun _ => some 0) 2 (by decide)

end ObjectPool

end Lob
