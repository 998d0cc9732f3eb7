import LightningLob.QueueMemoryOrder
import Mathlib.Data.Fintype.Defs

/-! # One queue between two threads

    A producer and a consumer on one `SpscRingBuffer`, with loads that may lag
    behind.  With the memory orders of the source no access to a slot is a data
    race and the queue is FIFO; there is a race as soon as one of the loads does
    not acquire or one of the stores does not release. -/

namespace LightningLob

open ReleaseAcquire
open Spsc (publishedValues poppedValues)

namespace SharedQueue

/-! ## Section 1: The two threads -/

inductive Party where
  | producer
  | consumer
  deriving DecidableEq, Repr

inductive Index where
  | write
  | read
  deriving DecidableEq, Repr

def lane : Lane Party Index Nat where
  producer := .producer
  consumer := .consumer
  writeIdx := .write
  readIdx := .read
  slot := id
  parties_ne := by decide
  indices_ne := by decide
  slot_injective := fun _ _ h => h

structure State (T : Type) where
  memory : Memory Party Index Nat Nat T
  producer : Spsc.Producer T := .idle
  consumer : Spsc.Consumer T := .idle

/-- Who moves next, and which store a load returns. -/
inductive Action (T : Type) where
  | push (item : T) (pos : Nat)
  | producer (pos : Nat)
  | pop (pos : Nat)
  | consumer (pos : Nat)
  deriving DecidableEq, Repr

variable {T : Type}

def start [Inhabited T] : State T := { memory := .initial (fun _ => 0) fun _ => default }

/-- One access. -/
def step (capacity : Capacity) (orders : QueueOrders) (s : State T) :
    Action T → Run (Spsc.Event T × State T)
  | .push item pos =>
      match s.producer with
      | .idle => do
          let (m, producer) ← lane.beginPush capacity s.memory item pos
          pure (.silent, { s with memory := m, producer := producer })
      | _ => none
  | .producer pos => do
      let (ev, m, producer) ← lane.producerStep orders s.memory pos s.producer
      pure (ev, { s with memory := m, producer := producer })
  | .pop pos =>
      match s.consumer with
      | .idle => do
          let (m, consumer) ← lane.beginPop s.memory pos
          pure (.silent, { s with memory := m, consumer := consumer })
      | _ => none
  | .consumer pos => do
      let (ev, m, consumer) ← lane.consumerStep capacity orders s.memory pos s.consumer
      pure (ev, { s with memory := m, consumer := consumer })

/-- The next access to a slot is a data race. -/
def State.Racing (s : State T) : Prop := lane.Racing s.memory s.producer s.consumer

/-- A move is the first access of a call, or the next one of a call in
    progress. -/
theorem step_cases {capacity : Capacity} {orders : QueueOrders} {s s' : State T} {a : Action T}
    {ev : Spsc.Event T} (hs : step capacity orders s a = some (ev, s')) :
    (∃ item pos m producer, a = .push item pos ∧ s.producer = .idle ∧ ev = .silent ∧
      lane.beginPush capacity s.memory item pos = some (m, producer) ∧
      s' = { s with memory := m, producer := producer }) ∨
    (∃ pos m producer, a = .producer pos ∧
      lane.producerStep orders s.memory pos s.producer = some (ev, m, producer) ∧
      s' = { s with memory := m, producer := producer }) ∨
    (∃ pos m consumer, a = .pop pos ∧ s.consumer = .idle ∧ ev = .silent ∧
      lane.beginPop s.memory pos = some (m, consumer) ∧
      s' = { s with memory := m, consumer := consumer }) ∨
    (∃ pos m consumer, a = .consumer pos ∧
      lane.consumerStep capacity orders s.memory pos s.consumer = some (ev, m, consumer) ∧
      s' = { s with memory := m, consumer := consumer }) := by
  cases a with
  | push item pos =>
    simp only [step] at hs
    split at hs
    · rename_i hidle
      obtain ⟨⟨m, producer⟩, hbegin, hs⟩ := Option.bind_eq_some_iff.mp hs
      obtain ⟨rfl, rfl⟩ := Prod.mk.inj (Option.some.inj hs)
      exact Or.inl ⟨item, pos, m, producer, rfl, hidle, rfl, hbegin, rfl⟩
    · cases hs
  | producer pos =>
    obtain ⟨⟨ev, m, producer⟩, hstep, hs⟩ := Option.bind_eq_some_iff.mp hs
    obtain ⟨rfl, rfl⟩ := Prod.mk.inj (Option.some.inj hs)
    exact Or.inr (Or.inl ⟨pos, m, producer, rfl, hstep, rfl⟩)
  | pop pos =>
    simp only [step] at hs
    split at hs
    · rename_i hidle
      obtain ⟨⟨m, consumer⟩, hbegin, hs⟩ := Option.bind_eq_some_iff.mp hs
      obtain ⟨rfl, rfl⟩ := Prod.mk.inj (Option.some.inj hs)
      exact Or.inr (Or.inr (Or.inl ⟨pos, m, consumer, rfl, hidle, rfl, hbegin, rfl⟩))
    · cases hs
  | consumer pos =>
    obtain ⟨⟨ev, m, consumer⟩, hstep, hs⟩ := Option.bind_eq_some_iff.mp hs
    obtain ⟨rfl, rfl⟩ := Prod.mk.inj (Option.some.inj hs)
    exact Or.inr (Or.inr (Or.inr ⟨pos, m, consumer, rfl, hstep, rfl⟩))

/-! ## Section 2: With the orders of the source -/

/-- After the events `evs`: no race, and a FIFO queue whose two ends may see
    each other late. -/
structure Holds (capacity : Capacity) (evs : List (Spsc.Event T)) (s : State T) : Prop where
  race_free : ¬ s.Racing
  /-- What is popped is the first part of what was published. -/
  fifo : poppedValues evs <+: publishedValues evs
  bound : (publishedValues evs).length ≤ (poppedValues evs).length + (capacity.size - 1)
  /-- The slots that calls in progress use exist. -/
  in_range : (∀ item write next, s.producer = .checked item write next → write < capacity.size) ∧
    ∀ read, s.consumer = .checked read → read < capacity.size
  /-- A push is refused when the pops that its load sees leave no room. -/
  full_iff : ∀ item write next pos ev s', s.producer = .loadedOwn item write next →
    step capacity .source s (.producer pos) = some (ev, s') →
    pos ≤ (poppedValues evs).length ∧
      (ev = .full ↔ (publishedValues evs).length = pos + (capacity.size - 1))
  /-- A pop is refused when its load sees nothing that was not popped. -/
  empty_iff : ∀ read pos ev s', s.consumer = .loadedOwn read →
    step capacity .source s (.consumer pos) = some (ev, s') →
    pos ≤ (publishedValues evs).length ∧ (ev = .empty ↔ pos = (poppedValues evs).length)

/-- What a run keeps: the lane stands for the values published, of which the
    first are popped. -/
structure Kept (capacity : Capacity) (evs : List (Spsc.Event T)) (s : State T) : Prop where
  consistent : s.memory.Consistent
  rep : lane.Rep capacity.size (publishedValues evs) s.memory s.producer s.consumer
  popped : poppedValues evs = (publishedValues evs).take (s.memory.done (.store .read))

section runs

variable {capacity : Capacity} {evs : List (Spsc.Event T)} {s s' : State T} {a : Action T}
  {ev : Spsc.Event T}

theorem Kept.popped_length (h : Kept capacity evs s) :
    (poppedValues evs).length = s.memory.done (.store .read) := by
  have hpassed := h.rep.passed_le h.consistent
  have hpublished := h.rep.ok.published
  have hle : s.memory.done (.store .read) ≤ (publishedValues evs).length := by
    rw [hpublished]
    exact Nat.le_trans (Nat.le_add_right _ _) hpassed
  rw [h.popped, List.length_take, Nat.min_eq_left hle]

/-- **One access** keeps it. -/
theorem Kept.step (h : Kept capacity evs s)
    (hs : SharedQueue.step capacity .source s a = some (ev, s')) :
    Kept capacity (evs ++ [ev]) s' := by
  have hpub : publishedValues (evs ++ [ev]) = publishedValues evs ++ publishedValues [ev] :=
    List.filterMap_append ..
  have hpop : poppedValues (evs ++ [ev]) = poppedValues evs ++ poppedValues [ev] :=
    List.filterMap_append ..
  have hpassed := h.rep.passed_le h.consistent
  have hpublished := h.rep.ok.published
  have hle : s.memory.done (.store .read) ≤ (publishedValues evs).length := by
    rw [hpublished]
    exact Nat.le_trans (Nat.le_add_right _ _) hpassed
  rcases step_cases hs with ⟨item, pos, m, producer, rfl, hidle, rfl, hbegin, rfl⟩ |
    ⟨pos, m, producer, rfl, hstep, rfl⟩ | ⟨pos, m, consumer, rfl, hidle, rfl, hbegin, rfl⟩ |
    ⟨pos, m, consumer, rfl, hstep, rfl⟩
  · have hrep := h.rep
    rw [hidle] at hrep
    obtain ⟨rfl, hrep'⟩ := hrep.beginPush h.consistent hbegin
    refine ⟨h.consistent, ?_, ?_⟩
    · rw [hpub]
      simpa [publishedValues] using hrep'
    · rw [hpub, hpop]
      simpa [publishedValues, poppedValues] using h.popped
  · obtain ⟨hm, hrep', hdone, hnone, -⟩ := h.rep.producerStep h.consistent hstep
    refine ⟨hm, ?_, ?_⟩
    · rw [hpub]
      exact hrep'
    · have hread : m.done (.store .read) = s.memory.done (.store .read) := hdone
      rw [hpub, hpop, hnone, List.append_nil, hread, List.take_append_of_le_length hle]
      exact h.popped
  · have hrep := h.rep
    rw [hidle] at hrep
    obtain ⟨rfl, hrep'⟩ := hrep.beginPop h.consistent hbegin
    refine ⟨h.consistent, ?_, ?_⟩
    · rw [hpub]
      simpa [publishedValues] using hrep'
    · rw [hpub, hpop]
      simpa [publishedValues, poppedValues] using h.popped
  · obtain ⟨hm, hrep', hnone, htake, -⟩ := h.rep.consumerStep h.consistent hstep
    refine ⟨hm, ?_, ?_⟩
    · rw [hpub, hnone, List.append_nil]
      exact hrep'
    · rw [hpub, hpop, hnone, List.append_nil, h.popped]
      exact htake.symm

theorem Kept.holds (h : Kept capacity evs s) : Holds capacity evs s where
  race_free := h.rep.not_racing h.consistent
  fifo := by
    rw [h.popped]
    exact List.take_prefix _ _
  bound := by
    have hheld := h.rep.held_lt h.consistent
    have hpublished : _ = s.memory.done (.store .write) := h.rep.ok.published
    rw [hpublished, h.popped_length]
    have hheld' : s.memory.done (.store .write) + s.producer.inFlight <
      s.memory.done (.store .read) + capacity.size := hheld
    omega
  in_range := by
    have hpos : 0 < capacity.size := Nat.lt_of_lt_of_le Nat.two_pos capacity.two_le
    constructor
    · intro item write next hpc
      have hp := h.rep.producer
      rw [hpc] at hp
      rw [hp.1]
      exact Nat.mod_lt _ hpos
    · intro read hpc
      have hc := h.rep.consumer
      rw [hpc] at hc
      rw [hc.1]
      exact Nat.mod_lt _ hpos
  full_iff := by
    intro item write next pos ev s' hpc hs
    rcases step_cases hs with ⟨_, _, _, _, ha, -⟩ | ⟨pos', m, producer, ha, hstep, -⟩ |
      ⟨_, _, _, ha, -⟩ | ⟨_, _, _, ha, -⟩
    · cases ha
    · cases ha
      obtain ⟨-, -, -, -, hfull⟩ := h.rep.producerStep h.consistent hstep
      have h2 := capacity.two_le
      rw [h.popped_length, hfull ⟨item, write, next, hpc⟩]
      rw [hpc] at hstep
      obtain ⟨⟨read, m₁⟩, hload, -⟩ := Option.bind_eq_some_iff.mp hstep
      exact ⟨(Lane.load_spec h.consistent hload).2.1, by omega⟩
    · cases ha
    · cases ha
  empty_iff := by
    intro read pos ev s' hpc hs
    rcases step_cases hs with ⟨_, _, _, _, ha, -⟩ | ⟨_, _, _, ha, -⟩ | ⟨_, _, _, ha, -⟩ |
      ⟨pos', m, consumer, ha, hstep, -⟩
    · cases ha
    · cases ha
    · cases ha
    · cases ha
      obtain ⟨-, -, -, -, hempty⟩ := h.rep.consumerStep h.consistent hstep
      have hpublished : _ = s.memory.done (.store .write) := h.rep.ok.published
      rw [h.popped_length, hempty ⟨read, hpc⟩, hpublished]
      rw [hpc] at hstep
      obtain ⟨⟨write, m₁⟩, hload, -⟩ := Option.bind_eq_some_iff.mp hstep
      exact ⟨(Lane.load_spec h.consistent hload).2.1, Iff.rfl⟩

end runs

/-- Orders that synchronise do what those of the source do. -/
theorem step_congr {capacity : Capacity} {orders : QueueOrders} (horders : orders.Synchronize) :
    step (T := T) capacity orders = step capacity .source := by
  funext s a
  cases a with
  | push | pop => rfl
  | producer pos => simp only [step, Lane.producerStep_congr horders]
  | consumer pos => simp only [step, Lane.consumerStep_congr horders]

theorem kept_of_exec [Inhabited T] {capacity : Capacity} {actions : List (Action T)}
    {evs : List (Spsc.Event T)} {s : State T}
    (hrun : Runs.exec (step capacity .source) start actions = some (evs, s)) :
    Kept capacity evs s := by
  have hpos : 0 < capacity.size := Nat.lt_of_lt_of_le Nat.two_pos capacity.two_le
  exact Runs.exec_invariant (P := fun evs s => Kept capacity evs s)
    (fun evs s a ev s' h hs => h.step hs) actions [] start
    ⟨Memory.consistent_initial _ _, Lane.rep_initial lane hpos rfl rfl _, rfl⟩ hrun

/-- **Race-free and FIFO under release and acquire**: whatever the two parties
    do and in whatever order, and whichever stores their loads return. -/
theorem queue_race_free_fifo [Inhabited T] (capacity : Capacity) (actions : List (Action T))
    (evs : List (Spsc.Event T)) (s : State T)
    (hrun : Runs.exec (step capacity .source) start actions = some (evs, s)) :
    Holds capacity evs s :=
  (kept_of_exec hrun).holds

/-- A buffer for one value: the second push still loads the first store of
    `read_idx_`, which a pop has superseded, and is refused. -/
theorem queue_race_free_fifo_stale_load :
    ∃ (evs : List (Spsc.Event Nat)) (s : State Nat), .full ∈ evs ∧ poppedValues evs = [7] ∧
      Holds ⟨2, by decide, by decide⟩ evs s := by
  obtain ⟨evs, s, hrun, hfull, hpop⟩ := Runs.exists_exec_of_any
    (step ⟨2, by decide, by decide⟩ .source) start
    [.push 7 0, .producer 0, .producer 0, .producer 0, .pop 0, .consumer 1, .consumer 0,
      .consumer 0, .push 8 1, .producer 0]
    (fun evs _ => .full ∈ evs ∧ poppedValues evs = [7]) (by decide)
  exact ⟨evs, s, hfull, hpop, queue_race_free_fifo _ _ evs s hrun⟩

/-! ## Section 3: With weaker orders -/

/-- The other party. -/
def Party.other : Party → Party
  | .producer => .consumer
  | .consumer => .producer

/-- The index a party stores. -/
def Party.index : Party → Index
  | .producer => .write
  | .consumer => .read

/-- The order of a party's load of the other one's index. -/
def Party.load (orders : QueueOrders) : Party → MemoryOrder
  | .producer => orders.pushLoad
  | .consumer => orders.popLoad

/-- The order of a party's store of its index. -/
def Party.store (orders : QueueOrders) : Party → MemoryOrder
  | .producer => orders.pushStore
  | .consumer => orders.popStore

/-- Nothing that the other party does to the slots reaches `u`. -/
def Deaf (orders : QueueOrders) (u : Party) : Prop :=
  (u.load orders).acquires → ¬ (u.other.store orders).releases

theorem exists_deaf {orders : QueueOrders} (hnot : ¬ orders.Synchronize) :
    ∃ u, Deaf orders u := by
  by_contra hall
  have hboth : ∀ u : Party, (u.load orders).acquires ∧ (u.other.store orders).releases := by
    intro u
    by_contra hone
    exact hall ⟨u, fun hacquires hreleases => hone ⟨hacquires, hreleases⟩⟩
  obtain ⟨hpushLoad, hpopStore⟩ := hboth .producer
  obtain ⟨hpopLoad, hpushStore⟩ := hboth .consumer
  exact hnot ⟨hpushLoad, hpushStore, hpopLoad, hpopStore⟩

/-- `u` knows of no access of the other party to a slot. -/
def Unaware (orders : QueueOrders) (u : Party) (s : State T) : Prop :=
  ∀ k, (∃ x, k = .read u.other x ∨ k = .write u.other x) →
    s.memory.Hidden u u.other.index (u.load orders) k

section weaker

variable {capacity : Capacity} {orders : QueueOrders} {s s' : State T} {a : Action T}
  {ev : Spsc.Event T} {u : Party}

theorem Unaware.step (h : Unaware orders u s) (hdeaf : Deaf orders u)
    (hs : SharedQueue.step capacity orders s a = some (ev, s')) : Unaware orders u s' := by
  intro k hmark
  have hhidden := h k hmark
  have hstore : ∀ l, k ≠ .store l := by
    obtain ⟨x, rfl | rfl⟩ := hmark <;> simp
  have hothers : ∀ x, k ≠ .read u x ∧ k ≠ .write u x := by
    intro x
    obtain ⟨y, rfl | rfl⟩ := hmark <;> cases u <;> simp [Party.other]
  rcases step_cases hs with ⟨item, pos, m, producer, rfl, hidle, rfl, hbegin, rfl⟩ |
    ⟨pos, m, producer, rfl, hstep, rfl⟩ | ⟨pos, m, consumer, rfl, hidle, rfl, hbegin, rfl⟩ |
    ⟨pos, m, consumer, rfl, hstep, rfl⟩
  · obtain ⟨⟨value, m₁⟩, hload, hbegin⟩ := Option.bind_eq_some_iff.mp hbegin
    obtain ⟨rfl, -⟩ := Prod.mk.inj (Option.some.inj hbegin)
    exact hhidden.load hstore (fun _ horder => by cases horder) hload
  · generalize s.producer = pc at hstep
    cases pc with
    | idle => cases hstep
    | loadedOwn item write next =>
      obtain ⟨value, hload⟩ := Lane.load_of_producerStep hstep
      refine hhidden.load hstore (fun hu horder => ?_) hload
      cases u with
      | producer => exact ⟨rfl, horder⟩
      | consumer => cases hu
    | checked item write next =>
      obtain ⟨-, rfl, -⟩ := by simpa [Lane.producerStep] using hstep
      exact hhidden.write (fun hu => by subst hu; exact (hothers _).2) _
    | written item next =>
      obtain ⟨-, rfl, -⟩ := by simpa [Lane.producerStep] using hstep
      refine hhidden.store hstore fun hl hacquire => ?_
      cases u with
      | producer => cases hl
      | consumer => exact hdeaf hacquire
  · obtain ⟨⟨value, m₁⟩, hload, hbegin⟩ := Option.bind_eq_some_iff.mp hbegin
    obtain ⟨rfl, -⟩ := Prod.mk.inj (Option.some.inj hbegin)
    exact hhidden.load hstore (fun _ horder => by cases horder) hload
  · generalize s.consumer = pc at hstep
    cases pc with
    | idle => cases hstep
    | loadedOwn read =>
      obtain ⟨value, hload⟩ := Lane.load_of_consumerStep hstep
      refine hhidden.load hstore (fun hu horder => ?_) hload
      cases u with
      | producer => cases hu
      | consumer => exact ⟨rfl, horder⟩
    | checked read =>
      obtain ⟨-, rfl, -⟩ := by simpa [Lane.consumerStep] using hstep
      exact hhidden.read fun hu => by subst hu; exact (hothers _).1
    | taken out read =>
      obtain ⟨-, rfl, -⟩ := by simpa [Lane.consumerStep] using hstep
      refine hhidden.store hstore fun hl hacquire => ?_
      cases u with
      | producer => exact hdeaf hacquire
      | consumer => cases hl

theorem unaware_of_exec [Inhabited T] (hdeaf : Deaf orders u) {actions : List (Action T)}
    {evs : List (Spsc.Event T)}
    (hrun : Runs.exec (SharedQueue.step capacity orders) start actions = some (evs, s)) :
    Unaware orders u s := by
  refine Runs.exec_invariant (P := fun _ s => Unaware orders u s)
    (fun evs s a ev s' h hs => h.step hdeaf hs) actions [] start ?_ hrun
  intro k hmark
  refine ⟨rfl, fun _ msg hmsg => ?_⟩
  obtain rfl : msg = ⟨0, fun _ => 0⟩ := by simpa [start, Memory.initial] using hmsg
  rfl

/-- A push gets as far as its check, if there is room. -/
theorem exec_checkRoom (orders : QueueOrders) {m : Memory Party Index Nat Nat T}
    (consumer : Spsc.Consumer T) {i j : Nat} (hm : m.Consistent)
    (hw : m.Last .write i (i % capacity.size)) (hr : m.Last .read j (j % capacity.size))
    (hroom : (i + 1) % capacity.size ≠ j % capacity.size) (item : T) :
    ∃ m', Runs.exec (SharedQueue.step capacity orders) ⟨m, .idle, consumer⟩
        [.push item i, .producer j] = some ([.silent, .silent],
          ⟨m', .checked item (i % capacity.size) ((i + 1) % capacity.size), consumer⟩) ∧
      m'.Consistent ∧ m'.stores = m.stores ∧ m'.done = m.done := by
  obtain ⟨m₁, m₂, hbegin, hcheck, hm₂, hstores, hdone, -⟩ :=
    lane.push_of_last orders hm hw hr hroom item
  exact ⟨m₂, by simp [Runs.exec, SharedQueue.step, hbegin, hcheck], hm₂, hstores, hdone⟩

/-- The rest of the push. -/
theorem exec_publish (m : Memory Party Index Nat Nat T) (item : T) (write next : Nat)
    (consumer : Spsc.Consumer T) :
    Runs.exec (SharedQueue.step capacity orders) ⟨m, .checked item write next, consumer⟩
        [.producer 0, .producer 0] =
      some ([.silent, .pushed item],
        ⟨(m.write .producer write item).store .producer orders.pushStore .write next, .idle,
          consumer⟩) := rfl

/-- A pop gets as far as its check, if there is something to read. -/
theorem exec_checkMore (orders : QueueOrders) {m : Memory Party Index Nat Nat T}
    (producer : Spsc.Producer T) {i j : Nat} (hm : m.Consistent)
    (hw : m.Last .write i (i % capacity.size)) (hr : m.Last .read j (j % capacity.size))
    (hmore : j % capacity.size ≠ i % capacity.size) :
    ∃ m', Runs.exec (SharedQueue.step capacity orders) ⟨m, producer, .idle⟩ [.pop j, .consumer i] =
        some ([.silent, .silent], ⟨m', producer, .checked (j % capacity.size)⟩) ∧
      m'.Consistent ∧ m'.stores = m.stores ∧ m'.done = m.done := by
  obtain ⟨m₁, m₂, hbegin, hcheck, hm₂, hstores, hdone⟩ :=
    lane.pop_of_last orders hm hw hr hmore
  exact ⟨m₂, by simp [Runs.exec, SharedQueue.step, hbegin, hcheck], hm₂, hstores, hdone⟩

/-- The rest of the pop. -/
theorem exec_pass (m : Memory Party Index Nat Nat T) (producer : Spsc.Producer T) (read : Nat) :
    Runs.exec (SharedQueue.step capacity orders) ⟨m, producer, .checked read⟩
        [.consumer 0, .consumer 0] =
      some ([.silent, .popped (m.cells read)],
        ⟨(m.read .consumer read).2.store .consumer orders.popStore .read
          ((read + 1) &&& capacity.kMask), producer, .idle⟩) := rfl

/-- Both parties are idle, `k` values have gone through, and the first slot has
    been read if any has. -/
structure Lap (capacity : Capacity) (k : Nat) (s : State T) : Prop where
  consistent : s.memory.Consistent
  producer : s.producer = .idle
  consumer : s.consumer = .idle
  write : s.memory.Last .write k (k % capacity.size)
  read : s.memory.Last .read k (k % capacity.size)
  used : 0 < k → 0 < s.memory.done (.read .consumer 0)

theorem Capacity.succ_mod_ne (capacity : Capacity) (k : Nat) :
    (k + 1) % capacity.size ≠ k % capacity.size :=
  (mod_ne_of_lt (Nat.lt_succ_self k) (by have := capacity.two_le; omega)).symm

/-- A push that has gone through, from between two laps. -/
theorem Lap.push {k : Nat} (h : Lap capacity k s) (orders : QueueOrders) (item : T) :
    ∃ actions evs m, Runs.exec (SharedQueue.step capacity orders) s actions =
        some (evs, ⟨m, .idle, .idle⟩) ∧ m.Consistent ∧
      m.Last .write (k + 1) ((k + 1) % capacity.size) ∧ m.Last .read k (k % capacity.size) ∧
      0 < m.done (.write .producer (k % capacity.size)) ∧
      ∀ x, m.done (.read .consumer x) = s.memory.done (.read .consumer x) := by
  obtain ⟨m, producer, consumer⟩ := s
  obtain rfl : producer = .idle := h.producer
  obtain rfl : consumer = .idle := h.consumer
  obtain ⟨m₁, hcheck, hm₁, hstores, hdone⟩ := exec_checkRoom orders .idle
    h.consistent h.write h.read (Capacity.succ_mod_ne capacity k) item
  have hm₂ := hm₁.write .producer (k % capacity.size) item
  have hw := (h.write.of_eq hstores (by rw [hdone])).write .producer (k % capacity.size) item
  have hr := (h.read.of_eq hstores (by rw [hdone])).write .producer (k % capacity.size) item
  refine ⟨_, _, _, Runs.exec_append hcheck (exec_publish _ _ _ _ _),
    hm₂.store _ _ _ _, hw.store hm₂ _ _ _, hr.store_of_ne (by decide), ?_, ?_⟩
  · simp [Memory.store, View.next_of_ne]
  · intro x
    simp [Memory.store, View.next_of_ne, hdone]

/-- **One more lap.** -/
theorem Lap.round {k : Nat} (h : Lap capacity k s) (orders : QueueOrders) (item : T) :
    ∃ actions evs s', Runs.exec (SharedQueue.step capacity orders) s actions = some (evs, s') ∧
      Lap capacity (k + 1) s' := by
  obtain ⟨actions, evs, m, hpush, hm, hw, hr, -, hreads⟩ := h.push orders item
  obtain ⟨m₁, hcheck, hm₁, hstores, hdone⟩ := exec_checkMore orders .idle hm hw hr
    (Capacity.succ_mod_ne capacity k).symm
  have hm₂ := hm₁.read .consumer (k % capacity.size)
  have hw₂ := (hw.of_eq hstores (by rw [hdone])).read .consumer (k % capacity.size)
  have hr₂ := (hr.of_eq hstores (by rw [hdone])).read .consumer (k % capacity.size)
  have hnext : (k % capacity.size + 1) &&& capacity.kMask = (k + 1) % capacity.size := by
    rw [capacity.and_kMask, Nat.mod_add_mod]
  refine ⟨_, _, _, Runs.exec_append hpush
    (Runs.exec_append hcheck (exec_pass _ _ _)),
    hm₂.store _ _ _ _, rfl, rfl, hw₂.store_of_ne (by decide), ?_, ?_⟩
  · have hlast := hr₂.store hm₂ .consumer orders.popStore
      ((k % capacity.size + 1) &&& capacity.kMask)
    rw [← hnext]
    exact hlast
  · intro _
    show 0 < (m₁.done.next (.read .consumer (k % capacity.size))).next (.store .read)
      (.read .consumer 0)
    rw [View.next_of_ne (by simp), hdone]
    by_cases hk : k = 0
    · rw [hk, Nat.zero_mod, View.next_self]
      exact Nat.succ_pos _
    · have hused := h.used (Nat.pos_of_ne_zero hk)
      rw [← hreads] at hused
      exact Nat.lt_of_lt_of_le hused (View.le_next _ _ _)

theorem exists_lap [Inhabited T] (capacity : Capacity) (orders : QueueOrders) (k : Nat) :
    ∃ actions evs, ∃ s : State T,
      Runs.exec (SharedQueue.step capacity orders) start actions = some (evs, s) ∧
        Lap capacity k s := by
  induction k with
  | zero =>
    refine ⟨[], [], _, rfl, Memory.consistent_initial _ _, rfl, rfl,
      ⟨rfl, ⟨0, fun _ => 0⟩, rfl, ?_⟩, ⟨rfl, ⟨0, fun _ => 0⟩, rfl, ?_⟩,
      fun h => absurd h (Nat.lt_irrefl 0)⟩
    · exact (Nat.zero_mod _).symm
    · exact (Nat.zero_mod _).symm
  | succ k ih =>
    obtain ⟨actions, evs, s, hrun, hlap⟩ := ih
    obtain ⟨actions', evs', s', hround, hlap'⟩ := hlap.round orders default
    exact ⟨_, _, s', Runs.exec_append hrun hround, hlap'⟩

end weaker

/-- **Every memory order is needed**: the queue is free of data races exactly
    when the two loads acquire and the two stores release, as those of the
    source do.  In the runs that race, loads return the last stores, so that
    the single order of `seqCst` accesses would not exclude them. -/
theorem race_free_iff_acquire_release [Inhabited T] (capacity : Capacity) (orders : QueueOrders) :
    (∀ (actions : List (Action T)) (evs : List (Spsc.Event T)) (s : State T),
      Runs.exec (step capacity orders) start actions = some (evs, s) → ¬ s.Racing) ↔
        (orders.pushLoad.acquires ∧ orders.popLoad.acquires) ∧
          orders.pushStore.releases ∧ orders.popStore.releases := by
  constructor
  · intro hfree
    suffices hall : orders.Synchronize from
      ⟨⟨hall.pushLoad, hall.popLoad⟩, hall.pushStore, hall.popStore⟩
    by_contra hnot
    obtain ⟨u, hdeaf⟩ := exists_deaf hnot
    cases u with
    | producer =>
      -- once round the circle, the first slot was read and is written again
      obtain ⟨actions, evs, ⟨m, producer, consumer⟩, hrun, hlap⟩ :=
        exists_lap (T := T) capacity orders capacity.size
      obtain rfl : producer = .idle := hlap.producer
      obtain rfl : consumer = .idle := hlap.consumer
      obtain ⟨m', hcheck, -, -, hdone⟩ := exec_checkRoom orders .idle
        hlap.consistent hlap.write hlap.read (Capacity.succ_mod_ne capacity _) default
      have hrun' := Runs.exec_append hrun hcheck
      have hunaware : m'.views .producer (.read .consumer 0) = 0 :=
        (unaware_of_exec hdeaf hrun' (.read .consumer 0) ⟨0, Or.inl rfl⟩).thread
      have hused : 0 < m.done (.read .consumer 0) :=
        hlap.used (Nat.lt_of_lt_of_le Nat.two_pos capacity.two_le)
      refine hfree _ _ _ hrun' (Or.inl ⟨_, _, _, rfl, .consumer, Or.inr ?_⟩)
      show m'.views .producer (.read .consumer (capacity.size % capacity.size)) <
        m'.done (.read .consumer (capacity.size % capacity.size))
      rw [Nat.mod_self, hunaware, hdone]
      exact hused
    | consumer =>
      -- the first slot is written, and read at once
      obtain ⟨actions, evs, s, hrun, hlap⟩ := exists_lap (T := T) capacity orders 0
      obtain ⟨actions', evs', m, hpush, hm, hw, hr, hwritten, -⟩ :=
        hlap.push orders default
      obtain ⟨m', hcheck, -, -, hdone⟩ := exec_checkMore orders .idle
        hm hw hr (Capacity.succ_mod_ne capacity 0).symm
      have hrun' := Runs.exec_append (Runs.exec_append hrun hpush) hcheck
      have hunaware : m'.views .consumer (.write .producer (0 % capacity.size)) = 0 :=
        (unaware_of_exec hdeaf hrun' _ ⟨_, Or.inr rfl⟩).thread
      refine hfree _ _ _ hrun' (Or.inr ⟨_, rfl, .producer, ?_⟩)
      show m'.views .consumer (.write .producer (0 % capacity.size)) <
        m'.done (.write .producer (0 % capacity.size))
      rw [hunaware, hdone]
      exact hwritten
  · rintro ⟨⟨hpushLoad, hpopLoad⟩, hpushStore, hpopStore⟩ actions evs s hrun
    rw [step_congr ⟨hpushLoad, hpushStore, hpopLoad, hpopStore⟩] at hrun
    exact (kept_of_exec hrun).holds.race_free

end SharedQueue

end LightningLob
