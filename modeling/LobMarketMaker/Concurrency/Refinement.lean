import LobMarketMaker.Concurrency.SpscRingBuffer

/-!
# The ring buffer refines a bounded queue

`queue` reads the abstract queue off the history. The invariant `Inv` relates the four indices to
the running numbers of accepted and returned values: each side's cached copy of the other index is
an old value of it, so it errs on the safe side, and a thread between two steps holds what its
next step needs (`PushOk`, `PopOk`).

* `Inv.pushStep`, `Inv.popStep`: each step of either thread keeps the invariant;
* `queue_pushStep`, `queue_popStep`: and is a step of the abstract queue, or none;
* **`fifo_refinement`**: the consequences for every interleaving.
-/

set_option autoImplicit false

namespace Lob

open Foundation Relation

/-- Whether the consumer holds a value it has already taken out of its slot. -/
def ConsumerPc.taken {T : Type} : ConsumerPc T → ℕ
  | .publish _ _ => 1
  | _ => 0

namespace SpscRingBuffer

variable {T : Type}

/-- The abstract queue: accepted and not yet returned values are its contents. -/
def queue (s : SpscRingBuffer T) : Fifo T where
  contents := s.pushed.drop s.popped.length
  accepted := s.pushed
  returned := s.popped

/-! ## The invariant -/

variable (cap : Capacity) (moved : T → T)

/-- The producer's copy of `tail` is an old value of it, with more than `slack` slots free. -/
def TailSeen (s : SpscRingBuffer T) (slack : ℕ) : Prop :=
  ∃ t, s.cachedTail = t % cap.size ∧ t ≤ s.popped.length ∧
    s.pushed.length + slack < t + cap.size

/-- The consumer's copy of `head` is an old value of it, with at least `ready` values to return. -/
def HeadSeen (s : SpscRingBuffer T) (ready : ℕ) : Prop :=
  ∃ h, s.cachedHead = h % cap.size ∧ s.popped.length + ready ≤ h ∧ h ≤ s.pushed.length

/-- What the producer knows between two of its steps. -/
def PushOk (s : SpscRingBuffer T) : Prop :=
  match s.producer with
  | .idle => True
  | .test _ head next | .refresh _ head next =>
    head = s.head ∧ next = (s.pushed.length + 1) % cap.size
  | .retest _ head next held =>
    head = s.head ∧ next = (s.pushed.length + 1) % cap.size ∧
      ∃ t, s.cachedTail = t % cap.size ∧ t ≤ s.popped.length ∧
        s.pushed.length = t + held ∧ held < cap.size
  | .write _ head next =>
    head = s.head ∧ next = (s.pushed.length + 1) % cap.size ∧ s.TailSeen cap 1
  | .publish value next =>
    next = (s.pushed.length + 1) % cap.size ∧ s.TailSeen cap 1 ∧
      s.buffer[s.pushed.length % cap.size]? = some value

/-- What the consumer knows between two of its steps. -/
def PopOk (s : SpscRingBuffer T) : Prop :=
  match s.consumer with
  | .idle => True
  | .test tail | .refresh tail => tail = s.tail
  | .retest tail held =>
    tail = s.tail ∧ ∃ h, s.cachedHead = h % cap.size ∧ h = s.popped.length + held ∧
      h ≤ s.pushed.length ∧ held < cap.size
  | .read tail => tail = s.tail ∧ s.HeadSeen cap 1
  | .publish tail value =>
    tail = s.tail ∧ s.HeadSeen cap 1 ∧ s.pushed[s.popped.length]? = some value

/-- What holds between any two steps of the two threads. -/
structure Inv (s : SpscRingBuffer T) : Prop where
  accounted : s.queue.Accounted cap.capacity
  length : s.buffer.length = cap.size
  head : s.head = s.pushed.length % cap.size
  tail : s.tail = s.popped.length % cap.size
  tailSeen : s.TailSeen cap 0
  headSeen : s.HeadSeen cap 0
  push : s.PushOk cap
  pop : s.PopOk cap
  slots : Window cap.size s.buffer s.pushed (s.popped.length + s.consumer.taken) s.pushed.length
  copies : (∀ v, moved v = v) →
    Window cap.size s.buffer s.pushed s.popped.length s.pushed.length
  refused : ∀ r ∈ s.refused, r.2 = cap.capacity
  missed : ∀ n ∈ s.missed, n = 0

variable {cap moved} {s s' : SpscRingBuffer T}

theorem Inv.popped_le (h : s.Inv cap moved) : s.popped.length ≤ s.pushed.length :=
  Nat.le.intro h.accounted.held.symm

theorem Inv.held_le (h : s.Inv cap moved) : s.held ≤ cap.capacity := by
  have hb := h.accounted.bounded
  rwa [queue, List.length_drop] at hb

theorem Inv.pushed_lt (h : s.Inv cap moved) : s.pushed.length < s.popped.length + cap.size := by
  have hh := h.held_le
  have hc := cap.capacity_lt
  unfold held at hh
  omega

theorem Inv.pushed_eq (h : s.Inv cap moved) : s.pushed.length = s.popped.length + s.held :=
  (Nat.add_sub_cancel' h.popped_le).symm

theorem TailSeen.frame {slack : ℕ} (h : s.TailSeen cap slack) (hc : s'.cachedTail = s.cachedTail)
    (hpu : s'.pushed = s.pushed) (hle : s.popped.length ≤ s'.popped.length) :
    s'.TailSeen cap slack := by
  obtain ⟨t, ht, htC, htP⟩ := h
  exact ⟨t, hc.trans ht, htC.trans hle, by rw [hpu]; exact htP⟩

theorem HeadSeen.frame {ready : ℕ} (h : s.HeadSeen cap ready) (hc : s'.cachedHead = s.cachedHead)
    (hpo : s'.popped = s.popped) (hle : s.pushed.length ≤ s'.pushed.length) :
    s'.HeadSeen cap ready := by
  obtain ⟨k, hk, hkC, hkP⟩ := h
  exact ⟨k, hc.trans hk, by rw [hpo]; exact hkC, hkP.trans hle⟩

theorem PushOk.frame (h : s.PushOk cap) (hp : s'.producer = s.producer) (hh : s'.head = s.head)
    (hc : s'.cachedTail = s.cachedTail) (hpu : s'.pushed = s.pushed)
    (hle : s.popped.length ≤ s'.popped.length)
    (hb : s'.buffer[s.pushed.length % cap.size]? = s.buffer[s.pushed.length % cap.size]?) :
    s'.PushOk cap := by
  unfold PushOk at h ⊢
  rw [hp, hpu, hh, hb]
  cases hs : s.producer with
  | idle => trivial
  | test value head next => rw [hs] at h; exact h
  | refresh value head next => rw [hs] at h; exact h
  | retest value head next n =>
    rw [hs] at h
    obtain ⟨h₁, h₂, t, ht, htC, hrest⟩ := h
    exact ⟨h₁, h₂, t, hc.trans ht, htC.trans hle, hrest⟩
  | write value head next =>
    rw [hs] at h
    exact ⟨h.1, h.2.1, h.2.2.frame hc hpu hle⟩
  | publish value next =>
    rw [hs] at h
    exact ⟨h.1, h.2.1.frame hc hpu hle, h.2.2⟩

theorem PopOk.frame (h : s.PopOk cap) (hc : s'.consumer = s.consumer) (ht : s'.tail = s.tail)
    (hh : s'.cachedHead = s.cachedHead) (hpo : s'.popped = s.popped)
    (hpu : s.pushed <+: s'.pushed) : s'.PopOk cap := by
  have hle := hpu.length_le
  unfold PopOk at h ⊢
  rw [hc, ht, hpo]
  cases hs : s.consumer with
  | idle => trivial
  | test tail => rw [hs] at h; exact h
  | refresh tail => rw [hs] at h; exact h
  | retest tail n =>
    rw [hs] at h
    obtain ⟨h₁, k, hk, hkC, hkP, hn⟩ := h
    exact ⟨h₁, k, hh.trans hk, hkC, hkP.trans hle, hn⟩
  | read tail =>
    rw [hs] at h
    exact ⟨h.1, h.2.frame hh hpo hle⟩
  | publish tail value =>
    rw [hs] at h
    obtain ⟨h₁, h₂, hv⟩ := h
    obtain ⟨rest, hrest⟩ := hpu
    refine ⟨h₁, h₂.frame hh hpo hle, ?_⟩
    rw [← hrest, List.getElem?_append_left (List.getElem?_eq_some_iff.mp hv).1]
    exact hv

/-! ## The producer's steps -/

theorem TailSeen.succ (hle : s.popped.length ≤ s.pushed.length) (h : s.TailSeen cap 0)
    (hne : (s.pushed.length + 1) % cap.size ≠ s.cachedTail) : s.TailSeen cap 1 := by
  obtain ⟨t, ht, htC, htP⟩ := h
  rw [ht] at hne
  have := mt (succ_mod_eq_iff (htC.trans hle) htP).mpr hne
  exact ⟨t, ht, htC, by omega⟩

/-- Every step of the producer but the last leaves the abstract queue alone, and the last one
pushes. -/
theorem queue_pushStep (h : s.Inv cap moved) (value : T) :
    ReflTransGen (Fifo.Step cap.capacity) s.queue (s.pushStep cap value).queue := by
  have hpush := h.push
  unfold PushOk at hpush
  unfold SpscRingBuffer.pushStep
  cases hs : s.producer with
  | idle => exact .refl
  | test v head next => dsimp only; split_ifs <;> exact .refl
  | refresh v head next => exact .refl
  | retest v head next n => dsimp only; split_ifs <;> exact .refl
  | write v head next => exact .refl
  | publish v next =>
    rw [hs] at hpush
    have hlen : s.queue.contents.length < cap.capacity := by
      obtain ⟨t, -, htC, htP⟩ := hpush.2.1
      have hc := cap.capacity_lt
      have hle := h.popped_le
      rw [queue, List.length_drop]
      omega
    have hq : (queue { s with head := next, producer := .idle, pushed := s.pushed ++ [v] }) =
        ⟨s.queue.contents ++ [v], s.queue.accepted ++ [v], s.queue.returned⟩ := by
      simp only [queue, List.drop_append_of_le_length h.popped_le]
    dsimp only
    rw [hq]
    exact .single (.push v hlen)

/-- **The producer keeps the invariant.** -/
theorem Inv.pushStep (h : s.Inv cap moved) (value : T) : (s.pushStep cap value).Inv cap moved := by
  have hacc := Fifo.accounted_of_steps (queue_pushStep h value) h.accounted
  have hpush := h.push
  have hlt := h.pushed_lt
  unfold PushOk at hpush
  unfold SpscRingBuffer.pushStep at hacc ⊢
  cases hs : s.producer with
  | idle =>
    refine { h with push := ⟨rfl, ?_⟩ }
    rw [cap.and_kMask, h.head, Nat.mod_add_mod]
  | test v head next =>
    rw [hs] at hpush
    dsimp only
    split_ifs with hn
    · exact { h with push := hpush }
    · rw [hpush.2] at hn
      exact { h with push := ⟨hpush.1, hpush.2, h.tailSeen.succ h.popped_le hn⟩ }
  | refresh v head next =>
    rw [hs] at hpush
    have hheld : s.held < cap.size := by
      have := h.held_le
      have := cap.capacity_lt
      omega
    exact { h with
      tailSeen := ⟨_, h.tail, Nat.le_refl _, hlt⟩
      push := ⟨hpush.1, hpush.2, _, h.tail, Nat.le_refl _, h.pushed_eq, hheld⟩ }
  | retest v head next n =>
    rw [hs] at hpush
    obtain ⟨h₁, h₂, t, ht, htC, hP, hn'⟩ := hpush
    dsimp only
    split_ifs with hn
    · refine { h with push := trivial, refused := ?_ }
      rw [h₂, ht, succ_mod_eq_iff (htC.trans h.popped_le) (by omega)] at hn
      have hc := cap.capacity_lt
      intro r hr
      rcases List.mem_append.mp hr with hr | hr
      · exact h.refused r hr
      · rw [List.mem_singleton.mp hr]
        show n = cap.capacity
        omega
    · rw [h₂] at hn
      exact { h with push := ⟨h₁, h₂, h.tailSeen.succ h.popped_le hn⟩ }
  | write v head next =>
    rw [hs] at hpush
    obtain ⟨rfl, h₂, hroom⟩ := hpush
    refine { h with
      length := by rw [List.length_set]; exact h.length
      push := ⟨h₂, hroom, ?_⟩
      slots := ?_
      copies := fun hm => ?_ }
    · show (s.buffer.set s.head v)[s.pushed.length % cap.size]? = some v
      rw [h.head, List.getElem?_set_self]
      rw [h.length]
      exact Nat.mod_lt _ cap.size_pos
    · show Window _ (s.buffer.set s.head v) _ _ _
      rw [h.head]
      exact h.slots.set_outside (Nat.le_refl _) (by omega) v
    · show Window _ (s.buffer.set s.head v) _ _ _
      rw [h.head]
      exact (h.copies hm).set_outside (Nat.le_refl _) hlt v
  | publish v next =>
    rw [hs] at hpush hacc
    obtain ⟨h₁, ⟨t, ht, htC, htP⟩, hv⟩ := hpush
    have hlen : (s.pushed ++ [v]).length = s.pushed.length + 1 := List.length_append
    exact { h with
      accounted := hacc
      head := by rw [hlen]; exact h₁
      tailSeen := ⟨t, ht, htC, by rw [hlen]; exact htP⟩
      headSeen := h.headSeen.frame rfl rfl (by rw [hlen]; exact Nat.le_succ _)
      push := trivial
      pop := h.pop.frame rfl rfl rfl rfl ⟨[v], rfl⟩
      slots := by rw [hlen]; exact h.slots.concat hv
      copies := fun hm => by rw [hlen]; exact (h.copies hm).concat hv }

/-! ## The consumer's steps -/

theorem HeadSeen.succ (h : s.HeadSeen cap 0)
    (hne : s.popped.length % cap.size ≠ s.cachedHead) : s.HeadSeen cap 1 := by
  obtain ⟨k, hk, hkC, hkP⟩ := h
  have : s.popped.length ≠ k := fun e => hne (by rw [hk, e])
  exact ⟨k, hk, by omega, hkP⟩

theorem HeadSeen.lt (h : s.HeadSeen cap 1) : s.popped.length < s.pushed.length := by
  obtain ⟨k, -, hkC, hkP⟩ := h
  exact hkC.trans hkP

theorem Inv.getD_tail [Inhabited T] (h : s.Inv cap moved) (hc : s.consumer.taken = 0)
    (hlt : s.popped.length < s.pushed.length) :
    s.pushed[s.popped.length]? = some (s.buffer.getD s.tail default) := by
  have hslot := h.slots s.popped.length (by rw [hc]; exact Nat.le_refl _) hlt
  rw [List.getD_eq_getElem?_getD, h.tail, hslot, List.getElem?_eq_getElem hlt]
  rfl

/-- Every step of the consumer but the last leaves the abstract queue alone, and the last one
pops. -/
theorem queue_popStep [Inhabited T] (h : s.Inv cap moved) :
    ReflTransGen (Fifo.Step cap.capacity) s.queue (s.popStep cap moved).queue := by
  have hpop := h.pop
  unfold PopOk at hpop
  unfold SpscRingBuffer.popStep
  cases hs : s.consumer with
  | idle => exact .refl
  | test tail => dsimp only; split_ifs <;> exact .refl
  | refresh tail => exact .refl
  | retest tail n => dsimp only; split_ifs <;> exact .refl
  | read tail => exact .refl
  | publish tail v =>
    rw [hs] at hpop
    obtain ⟨hlt, hv⟩ := List.getElem?_eq_some_iff.mp hpop.2.2
    have hc : s.queue.contents = v :: s.pushed.drop (s.popped.length + 1) := by
      rw [queue, List.drop_eq_getElem_cons hlt, hv]
    have hq : queue { s with
          tail := (tail + 1) &&& cap.kMask, consumer := .idle, popped := s.popped ++ [v] } =
        ⟨s.pushed.drop (s.popped.length + 1), s.queue.accepted, s.queue.returned ++ [v]⟩ := by
      simp only [queue, List.length_append, List.length_singleton]
    dsimp only
    rw [hq]
    exact .single (.pop hc)

/-- **The consumer keeps the invariant.** -/
theorem Inv.popStep [Inhabited T] (h : s.Inv cap moved) :
    (s.popStep cap moved).Inv cap moved := by
  have hacc := Fifo.accounted_of_steps (queue_popStep h) h.accounted
  have hpop := h.pop
  have hlt := h.pushed_lt
  have hslots := h.slots
  unfold PopOk at hpop
  unfold SpscRingBuffer.popStep at hacc ⊢
  cases hs : s.consumer with
  | idle =>
    rw [hs] at hslots
    exact { h with pop := rfl, slots := hslots }
  | test tail =>
    rw [hs] at hpop hslots
    dsimp only
    split_ifs with hn
    · exact { h with pop := hpop, slots := hslots }
    · rw [hpop, h.tail] at hn
      exact { h with pop := ⟨hpop, h.headSeen.succ hn⟩, slots := hslots }
  | refresh tail =>
    rw [hs] at hpop hslots
    have hheld : s.held < cap.size := by
      have := h.held_le
      have := cap.capacity_lt
      omega
    exact { h with
      headSeen := ⟨_, h.head, h.popped_le, Nat.le_refl _⟩
      pop := ⟨hpop, _, h.head, h.pushed_eq, Nat.le_refl _, hheld⟩
      slots := hslots }
  | retest tail n =>
    rw [hs] at hpop hslots
    obtain ⟨h₁, k, hk, hkC, hkP, hn'⟩ := hpop
    dsimp only
    split_ifs with hn
    · refine { h with pop := trivial, slots := hslots, missed := ?_ }
      rw [h₁, h.tail, hk] at hn
      have := eq_of_mod_eq (by omega) (by omega) hn
      intro m hm
      rcases List.mem_append.mp hm with hm | hm
      · exact h.missed m hm
      · rw [List.mem_singleton.mp hm]
        omega
    · rw [h₁, h.tail] at hn
      exact { h with pop := ⟨h₁, h.headSeen.succ hn⟩, slots := hslots }
  | read tail =>
    rw [hs] at hpop hslots
    obtain ⟨rfl, hready⟩ := hpop
    have hv := h.getD_tail (by rw [hs]; rfl) hready.lt
    refine { h with
      length := by rw [List.length_set]; exact h.length
      push := h.push.frame rfl rfl rfl rfl (Nat.le_refl _) ?_
      pop := ⟨rfl, hready, hv⟩
      slots := ?_
      copies := fun hm => ?_ }
    · show (s.buffer.set s.tail _)[_]? = _
      rw [h.tail]
      have := hready.lt
      exact getElem?_set_mod (by omega) (by omega) (by omega) _
    · show Window _ (s.buffer.set s.tail _) _ _ _
      rw [h.tail]
      exact (hslots.shrink (Nat.le_succ _)).set_before (Nat.lt_succ_self _) (Nat.le_of_lt hlt) _
    · show Window _ (s.buffer.set s.tail _) _ _ _
      rw [hm]
      have hin : s.tail < s.buffer.length := by
        rw [h.length, h.tail]
        exact Nat.mod_lt _ cap.size_pos
      rw [List.getD_eq_getElem _ _ hin, List.set_getElem_self]
      exact h.copies hm
  | publish tail v =>
    rw [hs] at hpop hacc hslots
    obtain ⟨h₁, ⟨k, hk, hkC, hkP⟩, hv⟩ := hpop
    have hlen : (s.popped ++ [v]).length = s.popped.length + 1 := List.length_append
    exact { h with
      accounted := hacc
      tail := by
        rw [hlen]
        show (tail + 1) &&& cap.kMask = _
        rw [cap.and_kMask, h₁, h.tail, Nat.mod_add_mod]
      tailSeen := h.tailSeen.frame rfl rfl (by rw [hlen]; exact Nat.le_succ _)
      headSeen := ⟨k, hk, by rw [hlen]; exact hkC, hkP⟩
      push := h.push.frame rfl rfl rfl rfl (by rw [hlen]; exact Nat.le_succ _) rfl
      pop := trivial
      slots := by rw [hlen]; exact hslots
      copies := fun hm => (h.copies hm).shrink (by rw [hlen]; exact Nat.le_succ _) }

/-! ## Every interleaving -/

theorem inv_new [Inhabited T] : (new cap : SpscRingBuffer T).Inv cap moved where
  accounted := Fifo.accounted_empty
  length := List.length_replicate
  head := (Nat.zero_mod _).symm
  tail := (Nat.zero_mod _).symm
  tailSeen := ⟨0, (Nat.zero_mod _).symm, Nat.le_refl _, by
    rw [Nat.zero_add]
    exact cap.size_pos⟩
  headSeen := ⟨0, (Nat.zero_mod _).symm, Nat.le_refl _, Nat.le_refl _⟩
  push := trivial
  pop := trivial
  slots := Window.of_le (Nat.zero_le _)
  copies := fun _ => Window.of_le (Nat.zero_le _)
  refused := fun _ hr => by cases hr
  missed := fun _ hn => by cases hn

variable (cap moved)

/-- **Simulation.** Every step of either thread is matched by the bounded queue. -/
theorem step_simulates [Inhabited T] :
    ForwardSimulation (step cap moved) (Fifo.Step cap.capacity)
      (fun s q => s.Inv cap moved ∧ s.queue = q) := by
  rintro s a q ⟨h, rfl⟩
  cases a with
  | producer value => exact ⟨_, queue_pushStep h value, h.pushStep value, rfl⟩
  | consumer => exact ⟨_, queue_popStep h, h.popStep, rfl⟩

theorem inv_run [Inhabited T] (l : List (Action T)) :
    (run (step cap moved) (new cap) l).Inv cap moved := by
  obtain ⟨_, -, h, -⟩ := (step_simulates cap moved).run ⟨inv_new, rfl⟩ l
  exact h

/-- **Main result.** After every interleaving of the steps of one producer and one consumer:

* the buffer has done what a queue of at most `capacity()` values does, and the returned values are
  a prefix of the accepted ones;
* an accepted and not yet returned value stands in its slot, unless the running `pop` has just
  taken it out of there; it does so even then if moving a value leaves it as it was;
* at most `capacity()` values are held;
* `push` returned false only when the buffer was full at the reload of the tail, and `pop` returned
  `nullopt` only when it was empty at the reload of the head. -/
theorem fifo_refinement [Inhabited T] (l : List (Action T)) :
    let s := run (step cap moved) (new cap) l
    (∃ q, ReflTransGen (Fifo.Step cap.capacity) {} q ∧
      q.accepted = s.pushed ∧ q.returned = s.popped) ∧
    s.popped <+: s.pushed ∧
    (∀ i, s.popped.length ≤ i → i < s.pushed.length →
      s.buffer[i % cap.size]? = s.pushed[i]? ∨
        i = s.popped.length ∧ ∃ tail v, s.consumer = .publish tail v ∧ s.pushed[i]? = some v) ∧
    ((∀ v, moved v = v) → ∀ i, s.popped.length ≤ i → i < s.pushed.length →
      s.buffer[i % cap.size]? = s.pushed[i]?) ∧
    s.held ≤ cap.capacity ∧
    (∀ r ∈ s.refused, r.2 = cap.capacity) ∧ (∀ n ∈ s.missed, n = 0) := by
  intro s
  have h : s.Inv cap moved := inv_run cap moved l
  refine ⟨?_, h.accounted.isPrefix, ?_, h.copies, h.held_le, h.refused, h.missed⟩
  · obtain ⟨q, hq, -, rfl⟩ := (step_simulates cap moved).run ⟨inv_new, rfl⟩ l
    exact ⟨_, hq, rfl, rfl⟩
  · intro i h₁ h₂
    by_cases hi : s.popped.length + s.consumer.taken ≤ i
    · exact .inl (h.slots i hi h₂)
    · have hpop := h.pop
      unfold PopOk at hpop
      cases hs : s.consumer with
      | publish tail v =>
        rw [hs] at hpop hi
        have hi' : i = s.popped.length := by
          simp only [ConsumerPc.taken] at hi
          omega
        exact .inr ⟨hi', tail, v, rfl, by rw [hi']; exact hpop.2.2⟩
      | _ =>
        rw [hs] at hi
        exact absurd h₁ hi

end SpscRingBuffer

end Lob
