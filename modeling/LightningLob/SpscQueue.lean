import LightningLob.SpscRingBuffer

/-! # The lock-free queue is a bounded FIFO queue

    Between any two accesses of the two parties the buffer stands for a queue
    of values that are published and not yet popped, of at most
    `Capacity - 1` of them.  Every access moves that queue like the bounded
    FIFO queue it implements. -/

namespace LightningLob

open CircularBuffer (Holds)

/-! ## Section 1: The bounded queue -/

namespace Spsc

variable {T : Type}

/-- What each event means for a FIFO queue of at most `bound` values. -/
inductive Moves (bound : Nat) : List T → Event T → List T → Prop where
  | silent (q : List T) : Moves bound q .silent q
  | pushed (q : List T) (v : T) (hroom : q.length < bound) : Moves bound q (.pushed v) (q ++ [v])
  | full (q : List T) (hfull : q.length = bound) : Moves bound q .full q
  | popped (q : List T) (v : T) : Moves bound (v :: q) (.popped v) q
  | empty : Moves bound [] .empty []

/-- The values whose push was published. -/
def publishedValues (evs : List (Event T)) : List T :=
  evs.filterMap fun
    | .pushed v => some v
    | _ => none

/-- The values popped. -/
def poppedValues (evs : List (Event T)) : List T :=
  evs.filterMap fun
    | .popped v => some v
    | _ => none

/-- A queue that holds what is published and not popped still does after a
    move. -/
theorem Moves.history {bound : Nat} {q q' : List T} {ev : Event T} (h : Moves bound q ev q')
    {evs : List (Event T)} (hq : publishedValues evs = poppedValues evs ++ q) :
    publishedValues (evs ++ [ev]) = poppedValues (evs ++ [ev]) ++ q' := by
  unfold publishedValues poppedValues at *
  rw [List.filterMap_append, List.filterMap_append, hq]
  cases h <;> simp

end Spsc

/-! ## Section 2: The calls -/

theorem Capacity.and_kMask (capacity : Capacity) (x : Nat) :
    x &&& capacity.kMask = x % capacity.size := by
  have h2 := capacity.two_le
  obtain ⟨k, hk⟩ := (Nat.and_sub_one_eq_zero_iff_isPowerOfTwo (by omega)).mp capacity.powerOfTwo
  unfold Capacity.kMask
  rw [hk]
  exact Nat.and_two_pow_sub_one_eq_mod x k

/-- The buffer stands for the queue `q`. -/
structure SpscRingBuffer.Rep {T : Type} (capacity : Capacity) (ring : SpscRingBuffer T)
    (q : List T) : Prop where
  size : ring.buffer.length = capacity.size
  holds : Holds ring.buffer ring.readIdx ring.writeIdx q

namespace SpscRingBuffer.Rep

variable {T : Type} {capacity : Capacity} {ring : SpscRingBuffer T} {q : List T} {v : T}

theorem create [Inhabited T] :
    (SpscRingBuffer.create capacity : SpscRingBuffer T).Rep capacity [] := by
  have h2 := capacity.two_le
  have hsize : (SpscRingBuffer.create capacity : SpscRingBuffer T).buffer.length =
      capacity.size := List.length_replicate
  exact ⟨hsize, CircularBuffer.holds_nil (by rw [hsize]; omega)⟩

theorem length_lt (h : ring.Rep capacity q) : q.length < capacity.size := by
  rw [← h.size]
  exact h.holds.length_lt

theorem full_iff (h : ring.Rep capacity q) :
    (ring.writeIdx + 1) &&& capacity.kMask = ring.readIdx ↔ q.length = capacity.size - 1 := by
  have h2 := capacity.two_le
  rw [capacity.and_kMask, ← h.size, h.holds.full_iff, h.size]
  omega

/-- The slot at the write index can be written without touching the queue. -/
theorem put (h : ring.Rep capacity q) (item : T) :
    ∃ ring', ring.put ring.writeIdx item = some ring' ∧ ring'.writeIdx = ring.writeIdx ∧
      ring'.readIdx = ring.readIdx ∧ ring'.buffer[ring.writeIdx]? = some item ∧
      ring'.Rep capacity q := by
  have hlt := h.holds.write_lt
  refine ⟨{ ring with buffer := ring.buffer.set ring.writeIdx item }, if_pos hlt, rfl, rfl, ?_, ?_⟩
  · exact List.getElem?_set_self hlt
  · exact ⟨by simpa using h.size, h.holds.fill item⟩

theorem publish (h : ring.Rep capacity q) (hv : ring.buffer[ring.writeIdx]? = some v)
    (hroom : q.length < capacity.size - 1) :
    ({ ring with writeIdx := (ring.writeIdx + 1) &&& capacity.kMask } : SpscRingBuffer T).Rep
      capacity (q ++ [v]) := by
  refine ⟨h.size, ?_⟩
  rw [capacity.and_kMask, ← h.size]
  exact h.holds.publish hv (by rw [h.size]; omega)

theorem pass (h : ring.Rep capacity (v :: q)) :
    ({ ring with readIdx := (ring.readIdx + 1) &&& capacity.kMask } : SpscRingBuffer T).Rep
      capacity q := by
  refine ⟨h.size, ?_⟩
  rw [capacity.and_kMask, ← h.size]
  exact h.holds.pass

/-- `try_push` adds the item to the queue, unless the queue is full. -/
theorem tryPush (h : ring.Rep capacity q) (item : T) :
    (q.length = capacity.size - 1 ∧ ring.tryPush capacity item = some (false, ring)) ∨
      ∃ ring', q.length < capacity.size - 1 ∧
        ring.tryPush capacity item = some (true, ring') ∧ ring'.Rep capacity (q ++ [item]) := by
  have hlt := h.length_lt
  unfold SpscRingBuffer.tryPush
  by_cases hfull : (ring.writeIdx + 1) &&& capacity.kMask = ring.readIdx
  · exact Or.inl ⟨h.full_iff.mp hfull, by simp [hfull]⟩
  · have hroom : q.length < capacity.size - 1 := by
      have := mt h.full_iff.mpr hfull
      omega
    obtain ⟨ring', hput, hw, hr, hv, hrep⟩ := h.put item
    rw [← hw] at hv
    refine Or.inr ⟨_, hroom, ?_, hrep.publish hv hroom⟩
    simp [hfull, hput, hw]

/-- `try_pop` takes the front of the queue, unless the queue is empty. -/
theorem tryPop (h : ring.Rep capacity q) :
    (q = [] ∧ ring.tryPop capacity = some (none, ring)) ∨
      ∃ v q' ring', q = v :: q' ∧ ring.tryPop capacity = some (some v, ring') ∧
        ring'.Rep capacity q' := by
  unfold SpscRingBuffer.tryPop
  cases q with
  | nil => exact Or.inl ⟨rfl, by simp [h.holds.empty_iff.mpr rfl]⟩
  | cons v q =>
    have hne : ring.readIdx ≠ ring.writeIdx := fun heq => by cases h.holds.empty_iff.mp heq
    refine Or.inr ⟨v, q, _, rfl, ?_, h.pass⟩
    simp [hne, h.holds.front]

theorem empty_eq (h : ring.Rep capacity q) : ring.empty = true ↔ q = [] := by
  unfold SpscRingBuffer.empty
  rw [decide_eq_true_eq]
  exact h.holds.empty_iff

end SpscRingBuffer.Rep

/-! ## Section 3: The calls, one access at a time -/

namespace Spsc

variable {T : Type} {capacity : Capacity} {s s' : State T} {q : List T} {ev : Event T}

/-- What the producer knows: its own index, and once it has checked, that there
    is room, which the consumer can only make more of. -/
def ProducerOk (capacity : Capacity) (ring : SpscRingBuffer T) (q : List T) : Producer T → Prop
  | .idle => True
  | .loadedOwn _ write next =>
      write = ring.writeIdx ∧ next = (ring.writeIdx + 1) &&& capacity.kMask
  | .checked _ write next =>
      write = ring.writeIdx ∧ next = (ring.writeIdx + 1) &&& capacity.kMask ∧
        q.length < capacity.size - 1
  | .written item next =>
      ring.buffer[ring.writeIdx]? = some item ∧
        next = (ring.writeIdx + 1) &&& capacity.kMask ∧ q.length < capacity.size - 1

/-- What the consumer knows: its own index, and once it has checked, that there
    is a value, which the producer leaves where it is. -/
def ConsumerOk (ring : SpscRingBuffer T) (q : List T) : Consumer T → Prop
  | .idle => True
  | .loadedOwn read => read = ring.readIdx
  | .checked read => read = ring.readIdx ∧ q ≠ []
  | .taken out read => read = ring.readIdx ∧ q.head? = some out

/-- The state between two accesses stands for the queue `q`. -/
structure Rep (capacity : Capacity) (s : State T) (q : List T) : Prop where
  ring : s.ring.Rep capacity q
  producer : ProducerOk capacity s.ring q s.producer
  consumer : ConsumerOk s.ring q s.consumer

/-- What the consumer knows stays true while values are added behind. -/
theorem ConsumerOk.append {ring ring' : SpscRingBuffer T} {pc : Consumer T}
    (h : ConsumerOk ring q pc) (hread : ring'.readIdx = ring.readIdx) (vs : List T) :
    ConsumerOk ring' (q ++ vs) pc := by
  unfold ConsumerOk at *
  rw [hread]
  cases pc with
  | idle => trivial
  | loadedOwn read => exact h
  | checked read => exact ⟨h.1, by simp [h.2]⟩
  | taken out read => exact ⟨h.1, by rw [List.head?_append, h.2]; rfl⟩

/-- What the producer knows stays true while values are taken in front. -/
theorem ProducerOk.pass {ring ring' : SpscRingBuffer T} {pc : Producer T} {v : T}
    (h : ProducerOk capacity ring (v :: q) pc) (hwrite : ring'.writeIdx = ring.writeIdx)
    (hbuffer : ring'.buffer = ring.buffer) : ProducerOk capacity ring' q pc := by
  unfold ProducerOk at *
  rw [hwrite, hbuffer]
  cases pc with
  | idle => trivial
  | loadedOwn item write next => exact h
  | checked item write next => exact ⟨h.1, h.2.1, Nat.lt_of_succ_lt h.2.2⟩
  | written item next => exact ⟨h.1, h.2.1, Nat.lt_of_succ_lt h.2.2⟩

/-- The producer's accesses, and that none of them is out of range. -/
theorem Rep.producerStep (h : Rep capacity s q) (hbusy : s.producer ≠ .idle) :
    ∃ ev s' q', Spsc.producerStep s = some (ev, s') ∧ Rep capacity s' q' ∧
      Moves (capacity.size - 1) q ev q' := by
  have hring := h.ring
  have hp := h.producer
  unfold Spsc.producerStep
  cases hpc : s.producer with
  | idle => exact (hbusy hpc).elim
  | loadedOwn item write next =>
    rw [hpc] at hp
    obtain ⟨rfl, rfl⟩ := hp
    by_cases hfull : (s.ring.writeIdx + 1) &&& capacity.kMask = s.ring.readIdx
    · refine ⟨_, _, q, if_pos hfull, ⟨hring, trivial, h.consumer⟩, ?_⟩
      exact .full q (hring.full_iff.mp hfull)
    · have hroom : q.length < capacity.size - 1 := by
        have := mt hring.full_iff.mpr hfull
        have := hring.length_lt
        omega
      exact ⟨_, _, q, if_neg hfull, ⟨hring, ⟨rfl, rfl, hroom⟩, h.consumer⟩, .silent q⟩
  | checked item write next =>
    rw [hpc] at hp
    obtain ⟨rfl, hnext, hroom⟩ := hp
    obtain ⟨ring', hput, hw, hr, hv, hrep⟩ := hring.put item
    rw [← hw] at hv hnext
    refine ⟨.silent, { s with ring := ring', producer := .written item next }, q, ?_,
      ⟨hrep, ⟨hv, hnext, hroom⟩, ?_⟩, .silent q⟩
    · simp only [hput]
      rfl
    · simpa using h.consumer.append hr []
  | written item next =>
    rw [hpc] at hp
    obtain ⟨hv, rfl, hroom⟩ := hp
    refine ⟨_, _, q ++ [item], rfl, ⟨hring.publish hv hroom, trivial, ?_⟩, .pushed q item hroom⟩
    exact h.consumer.append rfl [item]

/-- The consumer's accesses, and that none of them is out of range. -/
theorem Rep.consumerStep (h : Rep capacity s q) (hbusy : s.consumer ≠ .idle) :
    ∃ ev s' q', Spsc.consumerStep capacity s = some (ev, s') ∧ Rep capacity s' q' ∧
      Moves (capacity.size - 1) q ev q' := by
  have hring := h.ring
  have hc := h.consumer
  unfold Spsc.consumerStep
  cases hpc : s.consumer with
  | idle => exact (hbusy hpc).elim
  | loadedOwn read =>
    rw [hpc] at hc
    obtain rfl := hc
    by_cases hempty : s.ring.readIdx = s.ring.writeIdx
    · obtain rfl := hring.holds.empty_iff.mp hempty
      exact ⟨_, _, [], if_pos hempty, ⟨hring, h.producer, trivial⟩, .empty⟩
    · have hne := mt hring.holds.empty_iff.mpr hempty
      exact ⟨_, _, q, if_neg hempty, ⟨hring, h.producer, ⟨rfl, hne⟩⟩, .silent q⟩
  | checked read =>
    rw [hpc] at hc
    obtain ⟨rfl, hne⟩ := hc
    obtain ⟨v, q, rfl⟩ := List.exists_cons_of_ne_nil hne
    refine ⟨.silent, { s with consumer := .taken v s.ring.readIdx }, v :: q, ?_,
      ⟨hring, h.producer, ⟨rfl, rfl⟩⟩, .silent _⟩
    simp only [hring.holds.front]
    rfl
  | taken out read =>
    rw [hpc] at hc
    obtain ⟨rfl, hhead⟩ := hc
    obtain ⟨q, rfl⟩ := List.head?_eq_some_iff.mp hhead
    exact ⟨_, _, q, rfl, ⟨hring.pass, h.producer.pass rfl rfl, trivial⟩, .popped q out⟩

/-- **One access** moves the queue like the bounded FIFO queue. -/
theorem Rep.step (h : Rep capacity s q) {a : Action T}
    (hs : Spsc.step capacity s a = some (ev, s')) :
    ∃ q', Rep capacity s' q' ∧ Moves (capacity.size - 1) q ev q' := by
  rcases step_cases hs with ⟨item, next, rfl, rfl, hnext, rfl⟩ | ⟨rfl, hbusy, hs⟩ |
    ⟨rfl, rfl, rfl⟩ | ⟨rfl, hbusy, hs⟩
  · exact ⟨q, ⟨h.ring, ⟨rfl, hnext⟩, h.consumer⟩, .silent q⟩
  · obtain ⟨ev₁, s₁, q', hs₁, hrep, hmoves⟩ := h.producerStep hbusy
    obtain ⟨rfl, rfl⟩ := Prod.mk.inj (Option.some.inj (hs₁.symm.trans hs))
    exact ⟨q', hrep, hmoves⟩
  · exact ⟨q, ⟨h.ring, h.producer, rfl⟩, .silent q⟩
  · obtain ⟨ev₁, s₁, q', hs₁, hrep, hmoves⟩ := h.consumerStep hbusy
    obtain ⟨rfl, rfl⟩ := Prod.mk.inj (Option.some.inj (hs₁.symm.trans hs))
    exact ⟨q', hrep, hmoves⟩

theorem rep_start [Inhabited T] : Rep capacity (start capacity : State T) [] :=
  ⟨.create, trivial, trivial⟩

/-- A push shows nothing until it returns, and is refused at the load of
    `read_idx`. -/
theorem producerStep_shows (hs : producerStep s = some (ev, s')) :
    ev = .silent ∨ (∃ item, ev = .pushed item) ∨
      ev = .full ∧ ∃ item write next, s.producer = .loadedOwn item write next := by
  unfold producerStep at hs
  cases hpc : s.producer with
  | idle => simp [hpc] at hs
  | loadedOwn item write next =>
    simp only [hpc] at hs
    split at hs <;> obtain ⟨rfl, -⟩ := Prod.mk.inj (Option.some.inj hs) <;> simp
  | checked item write next =>
    simp only [hpc, Option.bind_eq_bind, Option.bind_eq_some_iff] at hs
    obtain ⟨ring, -, hs⟩ := hs
    obtain ⟨rfl, -⟩ := Prod.mk.inj (Option.some.inj hs)
    exact Or.inl rfl
  | written item next =>
    simp only [hpc] at hs
    obtain ⟨rfl, -⟩ := Prod.mk.inj (Option.some.inj hs)
    exact Or.inr (Or.inl ⟨item, rfl⟩)

/-- A pop shows nothing until it returns, and is refused at the load of
    `write_idx`. -/
theorem consumerStep_shows (hs : consumerStep capacity s = some (ev, s')) :
    ev = .silent ∨ (∃ item, ev = .popped item) ∨
      ev = .empty ∧ ∃ read, s.consumer = .loadedOwn read := by
  unfold consumerStep at hs
  cases hpc : s.consumer with
  | idle => simp [hpc] at hs
  | loadedOwn read =>
    simp only [hpc] at hs
    split at hs <;> obtain ⟨rfl, -⟩ := Prod.mk.inj (Option.some.inj hs) <;> simp
  | checked read =>
    simp only [hpc, Option.bind_eq_bind, Option.bind_eq_some_iff] at hs
    obtain ⟨out, -, hs⟩ := hs
    obtain ⟨rfl, -⟩ := Prod.mk.inj (Option.some.inj hs)
    exact Or.inl rfl
  | taken out read =>
    simp only [hpc] at hs
    obtain ⟨rfl, -⟩ := Prod.mk.inj (Option.some.inj hs)
    exact Or.inr (Or.inl ⟨out, rfl⟩)

theorem full_at_load {a : Action T} (hs : step capacity s a = some (.full, s')) :
    a = .producer ∧ ∃ item write next, s.producer = .loadedOwn item write next := by
  rcases step_cases hs with ⟨_, _, -, hev, -⟩ | ⟨rfl, -, hs⟩ | ⟨-, hev, -⟩ | ⟨rfl, -, hs⟩
  · cases hev
  · simpa using producerStep_shows hs
  · cases hev
  · simpa using consumerStep_shows hs

theorem empty_at_load {a : Action T} (hs : step capacity s a = some (.empty, s')) :
    a = .consumer ∧ ∃ read, s.consumer = .loadedOwn read := by
  rcases step_cases hs with ⟨_, _, -, hev, -⟩ | ⟨rfl, -, hs⟩ | ⟨-, hev, -⟩ | ⟨rfl, -, hs⟩
  · cases hev
  · simpa using producerStep_shows hs
  · cases hev
  · simpa using consumerStep_shows hs

/-! ## Section 4: Every interleaving -/

/-- After the events `evs` the state `s` is that of a FIFO queue in which the
    values `q` are left. -/
structure IsFifo (capacity : Capacity) (evs : List (Event T)) (s : State T) (q : List T) :
    Prop where
  values : publishedValues evs = poppedValues evs ++ q
  count : (q.length : Int) = ((s.ring.writeIdx : Int) - s.ring.readIdx) % capacity.size
  bound : q.length ≤ capacity.size - 1
  slots : ∀ i v, q[i]? = some v →
    s.ring.buffer[(s.ring.readIdx + i) % capacity.size]? = some v
  /-- The slot that the producer is about to write holds none of them. -/
  spares : ∀ item write next, s.producer = .checked item write next →
    ∀ i < q.length, (s.ring.readIdx + i) % capacity.size ≠ write
  /-- No access of a call in progress is out of range. -/
  in_range : (s.producer ≠ .idle → (step capacity s .producer).isSome) ∧
    (s.consumer ≠ .idle → (step capacity s .consumer).isSome)
  /-- A push is refused at its load of `read_idx`, by a queue that is full. -/
  full : ∀ a s', step capacity s a = some (.full, s') → a = .producer ∧
    (∃ item write next, s.producer = .loadedOwn item write next) ∧ q.length = capacity.size - 1
  /-- A pop is refused at its load of `write_idx`, by a queue that is empty. -/
  empty : ∀ a s', step capacity s a = some (.empty, s') → a = .consumer ∧
    (∃ read, s.consumer = .loadedOwn read) ∧ q = []

theorem Rep.isFifo (h : Rep capacity s q) {evs : List (Event T)}
    (hvalues : publishedValues evs = poppedValues evs ++ q) : IsFifo capacity evs s q where
  values := hvalues
  count := by
    rw [← h.ring.size]
    exact h.ring.holds.count
  bound := Nat.le_sub_one_of_lt h.ring.length_lt
  slots := by
    rw [← h.ring.size]
    exact h.ring.holds.cell
  spares := by
    intro item write next hpc i hi
    have hp := h.producer
    rw [hpc] at hp
    rw [hp.1, ← h.ring.size]
    exact h.ring.holds.free hi
  in_range := by
    constructor
    · intro hbusy
      obtain ⟨ev, s', q', hs, -⟩ := h.producerStep hbusy
      exact Option.isSome_of_eq_some hs
    · intro hbusy
      obtain ⟨ev, s', q', hs, -⟩ := h.consumerStep hbusy
      exact Option.isSome_of_eq_some hs
  full := by
    intro a s' hs
    obtain ⟨ha, hpc⟩ := full_at_load hs
    obtain ⟨q', -, hmoves⟩ := h.step hs
    cases hmoves with
    | full _ hfull => exact ⟨ha, hpc, hfull⟩
  empty := by
    intro a s' hs
    obtain ⟨ha, hpc⟩ := empty_at_load hs
    obtain ⟨q', -, hmoves⟩ := h.step hs
    cases hmoves with
    | empty => exact ⟨ha, hpc, rfl⟩

/-- **FIFO under every interleaving**: whatever the producer pushes and in
    whatever order the two parties make their accesses, what is published is
    what is popped and then the values left in the queue. -/
theorem spsc_fifo [Inhabited T] (capacity : Capacity) (actions : List (Action T))
    (evs : List (Event T)) (s : State T)
    (hrun : Runs.exec (step capacity) (start capacity) actions = some (evs, s)) :
    ∃ q, IsFifo capacity evs s q := by
  obtain ⟨q, hrep, hvalues⟩ := Runs.exec_invariant
    (P := fun evs s => ∃ q, Rep capacity s q ∧ publishedValues evs = poppedValues evs ++ q)
    (fun evs s a ev s' ⟨q, hrep, hvalues⟩ hs => by
      obtain ⟨q', hrep', hmoves⟩ := hrep.step hs
      exact ⟨q', hrep', hmoves.history hvalues⟩)
    actions [] (start capacity) ⟨[], rep_start, rfl⟩ hrun
  exact ⟨q, hrep.isFifo hvalues⟩

/-- A buffer for one value: the second push loads `read_idx` before the pop
    stores it and is refused; the third loads it after and goes through. -/
theorem spsc_fifo_late_room :
    ∃ (evs : List (Event Nat)) (s : State Nat), .full ∈ evs ∧ publishedValues evs = [7, 9] ∧
      poppedValues evs = [7] ∧ ∃ q, IsFifo ⟨2, by decide, by decide⟩ evs s q := by
  obtain ⟨evs, s, hrun, hfull, hpub, hpop⟩ := Runs.exists_exec_of_any
    (step ⟨2, by decide, by decide⟩) (start ⟨2, by decide, by decide⟩)
    [.push 7, .producer, .producer, .producer, .pop, .push 8, .consumer, .consumer, .producer,
      .push 9, .consumer, .producer, .producer, .producer]
    (fun evs _ => .full ∈ evs ∧ publishedValues evs = [7, 9] ∧ poppedValues evs = [7])
    (by decide)
  exact ⟨evs, s, hfull, hpub, hpop, spsc_fifo _ _ evs s hrun⟩

end Spsc

end LightningLob
