import LightningLob.Lib.ReleaseAcquire
import LightningLob.SpscQueue
import Mathlib.Data.Nat.Count

/-! # The lock-free queue under release and acquire

    `SpscRingBuffer` once more, now with the memory orders its accesses ask
    for: a load of the other party's index may return an old value, and the
    slots are plain memory, so that two accesses to a slot that are not ordered
    are a data race.  A `Lane` is where a queue lies in memory and which
    threads use it; there may be other queues beside it. -/

namespace LightningLob

open ReleaseAcquire

/-! ## Section 1: The calls, one access at a time -/

/-- The memory orders of the accesses to the indices, other than a party's
    loads of its own index, which are relaxed. -/
structure QueueOrders where
  /-- `read_idx_.load` of `try_push`. -/
  pushLoad : MemoryOrder
  /-- `write_idx_.store` of `try_push`. -/
  pushStore : MemoryOrder
  /-- `write_idx_.load` of `try_pop`. -/
  popLoad : MemoryOrder
  /-- `read_idx_.store` of `try_pop`. -/
  popStore : MemoryOrder
  deriving DecidableEq, Repr

/-- The orders in `lockfree_queue.hpp`. -/
def QueueOrders.source : QueueOrders := ⟨.acquire, .release, .acquire, .release⟩

/-- Each party's load acquires what the other one's store releases. -/
structure QueueOrders.Synchronize (orders : QueueOrders) : Prop where
  pushLoad : orders.pushLoad.acquires
  pushStore : orders.pushStore.releases
  popLoad : orders.popLoad.acquires
  popStore : orders.popStore.releases

/-- A queue in memory. -/
structure Lane (Tid Loc Cell : Type) where
  producer : Tid
  consumer : Tid
  writeIdx : Loc
  readIdx : Loc
  slot : Nat → Cell
  parties_ne : producer ≠ consumer
  indices_ne : writeIdx ≠ readIdx
  slot_injective : ∀ x y, slot x = slot y → x = y

namespace Lane

variable {Tid Loc Cell T : Type} [DecidableEq Tid] [DecidableEq Loc] [DecidableEq Cell]
  (lane : Lane Tid Loc Cell) (capacity : Capacity) (orders : QueueOrders)

/-- `try_push` begins: `write_idx_.load(relaxed)`. -/
def beginPush (m : Memory Tid Loc Cell Nat T) (item : T) (pos : Nat) :
    Run (Memory Tid Loc Cell Nat T × Spsc.Producer T) := do
  let (write, m) ← m.load lane.producer .relaxed lane.writeIdx pos
  pure (m, .loadedOwn item write ((write + 1) &&& capacity.kMask))

/-- The producer's next access; a load returns store number `pos`. -/
def producerStep (m : Memory Tid Loc Cell Nat T) (pos : Nat) :
    Spsc.Producer T → Run (Spsc.Event T × Memory Tid Loc Cell Nat T × Spsc.Producer T)
  | .idle => none
  | .loadedOwn item write next => do
      let (read, m) ← m.load lane.producer orders.pushLoad lane.readIdx pos
      if next = read then
        pure (.full, m, .idle)
      else
        pure (.silent, m, .checked item write next)
  | .checked item write next =>
      pure (.silent, m.write lane.producer (lane.slot write) item, .written item next)
  | .written item next =>
      pure (.pushed item, m.store lane.producer orders.pushStore lane.writeIdx next, .idle)

/-- `try_pop` begins: `read_idx_.load(relaxed)`. -/
def beginPop (m : Memory Tid Loc Cell Nat T) (pos : Nat) :
    Run (Memory Tid Loc Cell Nat T × Spsc.Consumer T) := do
  let (read, m) ← m.load lane.consumer .relaxed lane.readIdx pos
  pure (m, .loadedOwn read)

/-- The consumer's next access; a load returns store number `pos`. -/
def consumerStep (m : Memory Tid Loc Cell Nat T) (pos : Nat) :
    Spsc.Consumer T → Run (Spsc.Event T × Memory Tid Loc Cell Nat T × Spsc.Consumer T)
  | .idle => none
  | .loadedOwn read => do
      let (write, m) ← m.load lane.consumer orders.popLoad lane.writeIdx pos
      if read = write then
        pure (.empty, m, .idle)
      else
        pure (.silent, m, .checked read)
  | .checked read =>
      let (out, m) := m.read lane.consumer (lane.slot read)
      pure (.silent, m, .taken out read)
  | .taken out read =>
      pure (.popped out,
        m.store lane.consumer orders.popStore lane.readIdx ((read + 1) &&& capacity.kMask), .idle)

/-- The next access to a slot is a data race. -/
def Racing (m : Memory Tid Loc Cell Nat T) (producer : Spsc.Producer T)
    (consumer : Spsc.Consumer T) : Prop :=
  (∃ item write next, producer = .checked item write next ∧
    m.WriteRaces lane.producer (lane.slot write)) ∨
  ∃ read, consumer = .checked read ∧ m.ReadRaces lane.consumer (lane.slot read)

section inversion

variable {lane : Lane Tid Loc Cell} {capacity : Capacity} {orders : QueueOrders}
  {m m' : Memory Tid Loc Cell Nat T} {pos : Nat} {ev : Spsc.Event T}

/-- The check of a push is a load and nothing else. -/
theorem load_of_producerStep {item : T} {write next : Nat} {pc : Spsc.Producer T}
    (hs : lane.producerStep orders m pos (.loadedOwn item write next) = some (ev, m', pc)) :
    ∃ read, m.load lane.producer orders.pushLoad lane.readIdx pos = some (read, m') := by
  obtain ⟨⟨read, m₁⟩, hload, hs⟩ := Option.bind_eq_some_iff.mp hs
  simp only at hs
  split at hs
  all_goals
    obtain ⟨-, rfl, -⟩ := by simpa using hs
    exact ⟨read, hload⟩

/-- So is the check of a pop. -/
theorem load_of_consumerStep {read : Nat} {pc : Spsc.Consumer T}
    (hs : lane.consumerStep capacity orders m pos (.loadedOwn read) = some (ev, m', pc)) :
    ∃ write, m.load lane.consumer orders.popLoad lane.writeIdx pos = some (write, m') := by
  obtain ⟨⟨write, m₁⟩, hload, hs⟩ := Option.bind_eq_some_iff.mp hs
  simp only at hs
  split at hs
  all_goals
    obtain ⟨-, rfl, -⟩ := by simpa using hs
    exact ⟨write, hload⟩

/-- Orders that synchronise do what those of the source do. -/
theorem producerStep_congr (horders : orders.Synchronize) (pc : Spsc.Producer T) :
    lane.producerStep orders m pos pc = lane.producerStep .source m pos pc := by
  cases pc with
  | idle | checked => rfl
  | loadedOwn item write next =>
    have hload : _ = QueueOrders.source.pushLoad.acquires := horders.pushLoad
    simp only [producerStep]
    rw [Memory.load_congr hload]
  | written item next =>
    have hstore : _ = QueueOrders.source.pushStore.releases := horders.pushStore
    simp only [producerStep]
    rw [Memory.store_congr hstore]

theorem consumerStep_congr (horders : orders.Synchronize) (pc : Spsc.Consumer T) :
    lane.consumerStep capacity orders m pos pc =
      lane.consumerStep capacity .source m pos pc := by
  cases pc with
  | idle | checked => rfl
  | loadedOwn read =>
    have hload : _ = QueueOrders.source.popLoad.acquires := horders.popLoad
    simp only [consumerStep]
    rw [Memory.load_congr hload]
  | taken out read =>
    have hstore : _ = QueueOrders.source.popStore.releases := horders.popStore
    simp only [consumerStep]
    rw [Memory.store_congr hstore]

end inversion

end Lane

/-! ## Section 2: Turns of the circle -/

/-- How many of the first `k` slots used, going round, are slot `x`. -/
def turns (n k x : Nat) : Nat := Nat.count (fun i => i % n = x) k

theorem mod_ne_of_lt {n i j : Nat} (hlt : i < j) (hturn : j < i + n) : i % n ≠ j % n := by
  intro heq
  have hdvd : n ∣ j - i := (Nat.modEq_iff_dvd' (Nat.le_of_lt hlt)).mp heq
  have := Nat.le_of_dvd (by omega) hdvd
  omega

/-- A full turn ahead is the only way to meet from behind. -/
theorem mod_eq_iff_turn {n i j : Nat} (hlt : i < j) (hturn : j ≤ i + n) :
    j % n = i % n ↔ j = i + n := by
  constructor
  · intro heq
    by_contra hne
    exact mod_ne_of_lt hlt (by omega) heq.symm
  · rintro rfl
    exact Nat.add_mod_right i n

theorem turns_succ (n k x : Nat) :
    turns n (k + 1) x = turns n k x + if k % n = x then 1 else 0 :=
  Nat.count_succ _ _

/-- Nothing changes for a slot that is not used. -/
theorem turns_eq {n s k x : Nat} (hle : s ≤ k) (hskip : ∀ i, s ≤ i → i < k → i % n ≠ x) :
    turns n k x = turns n s x := by
  induction k, hle using Nat.le_induction with
  | base => rfl
  | succ k hle ih =>
    rw [turns_succ, if_neg (hskip k hle (Nat.lt_succ_self k)), Nat.add_zero]
    exact ih fun i hi hlt => hskip i hi (Nat.lt_succ_of_lt hlt)

/-! ## Section 3: What the memory says of a lane -/

/-- Whether a slot is written and not published. -/
def Spsc.Producer.inFlight {T : Type} : Spsc.Producer T → Nat
  | .written _ _ => 1
  | _ => 0

/-- The item of the call. -/
def Spsc.Producer.item? {T : Type} : Spsc.Producer T → Option T
  | .idle => none
  | .loadedOwn item _ _ | .checked item _ _ | .written item _ => some item

/-- Whether a slot is read and not passed. -/
def Spsc.Consumer.inFlight {T : Type} : Spsc.Consumer T → Nat
  | .taken _ _ => 1
  | _ => 0

namespace Lane

variable {Tid Loc Cell T : Type} {lane : Lane Tid Loc Cell} {m m' : Memory Tid Loc Cell Nat T}

/-- Who knows a store of an index knows of the accesses to slots that came
    before it. -/
def Knows (lane : Lane Tid Loc Cell) (n : Nat) (v : View Tid Loc Cell) : Prop :=
  ∀ x, turns n (v (.store lane.writeIdx)) x ≤ v (.write lane.producer (lane.slot x)) ∧
    turns n (v (.store lane.readIdx)) x ≤ v (.read lane.consumer (lane.slot x))

theorem knows_joins (lane : Lane Tid Loc Cell) (n : Nat) : Memory.Joins (lane.Knows n) := by
  have hmax : ∀ a b x : Nat, turns n (max a b) x = max (turns n a x) (turns n b x) :=
    fun a b x => (Nat.count_monotone fun i => i % n = x).map_max
  intro v w hv hw x
  obtain ⟨hv₁, hv₂⟩ := hv x
  obtain ⟨hw₁, hw₂⟩ := hw x
  simp only [Pi.sup_apply, hmax]
  exact ⟨max_le_max hv₁ hw₁, max_le_max hv₂ hw₂⟩

/-- Nothing is lost with one more access to a cell. -/
theorem Knows.access [DecidableEq Tid] [DecidableEq Loc] [DecidableEq Cell] {n : Nat}
    {v : View Tid Loc Cell} (h : lane.Knows n v) {k : Mark Tid Loc Cell}
    (hk : ∀ l, k ≠ .store l) : lane.Knows n (v.next k) := by
  intro x
  rw [View.next_of_ne (hk _).symm, View.next_of_ne (hk _).symm]
  exact ⟨(h x).1.trans (View.le_next v k _), (h x).2.trans (View.le_next v k _)⟩

/-- Nor with one more store elsewhere. -/
theorem Knows.store [DecidableEq Tid] [DecidableEq Loc] [DecidableEq Cell] {n i : Nat}
    {v : View Tid Loc Cell} (h : lane.Knows n v) {l : Loc} (hw : l ≠ lane.writeIdx)
    (hr : l ≠ lane.readIdx) : lane.Knows n (Function.update v (.store l) i) := by
  intro x
  simpa [Ne.symm hw, Ne.symm hr] using h x

variable [DecidableEq Tid]

/-- The lane in memory, when the values `items` have been published.  `wrote`
    and `took` say whether a slot is written or read ahead of its index. -/
structure Ok (lane : Lane Tid Loc Cell) (n : Nat) (items : List T)
    (m : Memory Tid Loc Cell Nat T) (wrote took : Nat) : Prop where
  published : items.length = m.done (.store lane.writeIdx)
  writeIdx : ∀ k msg, (m.stores lane.writeIdx)[k]? = some msg → Message.value msg = k % n
  readIdx : ∀ k msg, (m.stores lane.readIdx)[k]? = some msg → Message.value msg = k % n
  written : ∀ u x, m.done (.write u (lane.slot x)) =
    if u = lane.producer then turns n (m.done (.store lane.writeIdx) + wrote) x else 0
  taken : ∀ u x, m.done (.read u (lane.slot x)) =
    if u = lane.consumer then turns n (m.done (.store lane.readIdx) + took) x else 0
  content : ∀ k v, m.done (.store lane.readIdx) ≤ k → items[k]? = some v →
    m.cells (lane.slot (k % n)) = v
  writer : m.views lane.producer (.store lane.writeIdx) = m.done (.store lane.writeIdx)
  reader : m.views lane.consumer (.store lane.readIdx) = m.done (.store lane.readIdx)
  room : m.done (.store lane.writeIdx) + 1 ≤ m.views lane.producer (.store lane.readIdx) + n
  behind : m.done (.store lane.readIdx) ≤ m.views lane.consumer (.store lane.writeIdx)

/-- What the producer knows: its own index, and once it has checked, that there
    is room. -/
def ProducerOk (lane : Lane Tid Loc Cell) (n : Nat) (m : Memory Tid Loc Cell Nat T) :
    Spsc.Producer T → Prop
  | .idle => True
  | .loadedOwn _ write next =>
      write = m.done (.store lane.writeIdx) % n ∧ next = (m.done (.store lane.writeIdx) + 1) % n
  | .checked _ write next =>
      write = m.done (.store lane.writeIdx) % n ∧
        next = (m.done (.store lane.writeIdx) + 1) % n ∧
        m.done (.store lane.writeIdx) + 2 ≤ m.views lane.producer (.store lane.readIdx) + n
  | .written item next =>
      m.cells (lane.slot (m.done (.store lane.writeIdx) % n)) = item ∧
        next = (m.done (.store lane.writeIdx) + 1) % n ∧
        m.done (.store lane.writeIdx) + 2 ≤ m.views lane.producer (.store lane.readIdx) + n

/-- What the consumer knows: its own index, and once it has checked, that there
    is a value. -/
def ConsumerOk (lane : Lane Tid Loc Cell) (n : Nat) (items : List T)
    (m : Memory Tid Loc Cell Nat T) : Spsc.Consumer T → Prop
  | .idle => True
  | .loadedOwn read => read = m.done (.store lane.readIdx) % n
  | .checked read => read = m.done (.store lane.readIdx) % n ∧
      m.done (.store lane.readIdx) < m.views lane.consumer (.store lane.writeIdx)
  | .taken out read => read = m.done (.store lane.readIdx) % n ∧
      m.done (.store lane.readIdx) < m.views lane.consumer (.store lane.writeIdx) ∧
      items[m.done (.store lane.readIdx)]? = some out

/-- The lane between two accesses. -/
structure Rep (lane : Lane Tid Loc Cell) (n : Nat) (items : List T)
    (m : Memory Tid Loc Cell Nat T) (producer : Spsc.Producer T) (consumer : Spsc.Consumer T) :
    Prop where
  ok : lane.Ok n items m producer.inFlight consumer.inFlight
  knows : m.Everywhere (fun _ => True) (lane.Knows n)
  producer : lane.ProducerOk n m producer
  consumer : lane.ConsumerOk n items m consumer

/-- Before the first call. -/
theorem rep_initial (lane : Lane Tid Loc Cell) {n : Nat} (hn : 0 < n) {value : Loc → Nat}
    (hw : value lane.writeIdx = 0) (hr : value lane.readIdx = 0) (content : Cell → T) :
    lane.Rep n [] (Memory.initial value content) .idle .idle := by
  have hvalue : ∀ l, value l = 0 → ∀ (k : Nat) (msg : Message Tid Loc Cell Nat),
      ((Memory.initial value content : Memory Tid Loc Cell Nat T).stores l)[k]? = some msg →
        msg.value = k % n := by
    intro l hl k msg hk
    obtain ⟨rfl, rfl⟩ : k = 0 ∧ ⟨value l, fun _ => 0⟩ = msg := by
      simpa [Memory.initial, List.getElem?_singleton] using hk
    rw [hl, Nat.zero_mod]
  have hzero : lane.Knows n fun _ => 0 := fun x => by simp [turns]
  refine ⟨⟨rfl, hvalue _ hw, hvalue _ hr, ?_, ?_, by simp, rfl, rfl, ?_, Nat.le_refl _⟩,
    ⟨fun _ _ => hzero, ?_⟩, trivial, trivial⟩
  · intro u x
    simp [Memory.initial, Spsc.Producer.inFlight, turns]
  · intro u x
    simp [Memory.initial, Spsc.Consumer.inFlight, turns]
  · simp only [Memory.initial]
    omega
  · intro l msg hmsg
    obtain rfl : msg = ⟨value l, fun _ => 0⟩ := by simpa [Memory.initial] using hmsg
    exact hzero

section bounds

variable {n : Nat} {items : List T} {producer : Spsc.Producer T} {consumer : Spsc.Consumer T}

theorem Rep.passed_le (h : lane.Rep n items m producer consumer) (hm : m.Consistent) :
    m.done (.store lane.readIdx) + consumer.inFlight ≤ m.done (.store lane.writeIdx) := by
  have hseen := hm.known_le lane.consumer (.store lane.writeIdx)
  have hc := h.consumer
  cases consumer with
  | idle | loadedOwn | checked => exact h.ok.behind.trans hseen
  | taken out read => exact Nat.le_trans hc.2.1 hseen

theorem Rep.held_lt (h : lane.Rep n items m producer consumer) (hm : m.Consistent) :
    m.done (.store lane.writeIdx) + producer.inFlight <
      m.done (.store lane.readIdx) + n := by
  have hseen := hm.known_le lane.producer (.store lane.readIdx)
  have hp := h.producer
  have hroom := h.ok.room
  cases producer with
  | idle | loadedOwn | checked => simp only [Spsc.Producer.inFlight]; omega
  | written item next =>
    have := hp.2.2
    simp only [Spsc.Producer.inFlight]
    omega

/-- **The producer's write is ordered** after the last read of the slot. -/
theorem Rep.write_ordered {item : T} {write next : Nat}
    (h : lane.Rep n items m (.checked item write next) consumer) (hm : m.Consistent) :
    ¬ m.WriteRaces lane.producer (lane.slot write) := by
  obtain ⟨rfl, -, hroom⟩ := h.producer
  have hpassed := h.passed_le hm
  rintro ⟨u, hwrite | hread⟩
  · rw [h.ok.written] at hwrite
    split at hwrite
    · rename_i hu
      have hown := (hm.own lane.producer (lane.slot (m.done (.store lane.writeIdx) % n))).2
      rw [h.ok.written, if_pos rfl] at hown
      rw [hu] at hwrite
      omega
    · exact Nat.not_lt_zero _ hwrite
  · rw [h.ok.taken] at hread
    split at hread
    · rename_i hu
      -- the reads that the producer does not know of are of other slots
      have hknown := ((h.knows.thread lane.producer trivial)
        (m.done (.store lane.writeIdx) % n)).2
      have hseen := hm.known_le lane.producer (.store lane.readIdx)
      have heq := turns_eq (n := n) (x := m.done (.store lane.writeIdx) % n)
        (s := m.views lane.producer (.store lane.readIdx))
        (k := m.done (.store lane.readIdx) + consumer.inFlight) (Nat.le_add_right_of_le hseen)
        fun i hi hlt => mod_ne_of_lt (by omega) (by omega)
      rw [hu] at hread
      omega
    · exact Nat.not_lt_zero _ hread

/-- **The consumer's read is ordered** after the last write of the slot. -/
theorem Rep.read_ordered {read : Nat} (h : lane.Rep n items m producer (.checked read))
    (hm : m.Consistent) : ¬ m.ReadRaces lane.consumer (lane.slot read) := by
  obtain ⟨rfl, hmore⟩ := h.consumer
  have hheld := h.held_lt hm
  rintro ⟨u, hwrite⟩
  rw [h.ok.written] at hwrite
  split at hwrite
  · rename_i hu
    have hknown := ((h.knows.thread lane.consumer trivial) (m.done (.store lane.readIdx) % n)).1
    have hseen := hm.known_le lane.consumer (.store lane.writeIdx)
    have heq := turns_eq (n := n) (x := m.done (.store lane.readIdx) % n)
      (s := m.views lane.consumer (.store lane.writeIdx))
      (k := m.done (.store lane.writeIdx) + producer.inFlight) (Nat.le_add_right_of_le hseen)
      fun i hi hlt => (mod_ne_of_lt (by omega) (by omega)).symm
    rw [hu] at hwrite
    omega
  · exact Nat.not_lt_zero _ hwrite

/-- No access to a slot is a race. -/
theorem Rep.not_racing (h : lane.Rep n items m producer consumer) (hm : m.Consistent) :
    ¬ lane.Racing m producer consumer := by
  rintro (⟨item, write, next, rfl, hrace⟩ | ⟨read, rfl, hrace⟩)
  · exact h.write_ordered hm hrace
  · exact h.read_ordered hm hrace

end bounds

/-! ## Section 4: Steps that leave a lane alone -/

/-- The marks that are about the lane. -/
def Uses (lane : Lane Tid Loc Cell) : Mark Tid Loc Cell → Prop
  | .store l => l = lane.writeIdx ∨ l = lane.readIdx
  | .read _ c | .write _ c => ∃ x, c = lane.slot x

/-- Nothing has happened on the lane, but its parties may know more. -/
structure Same (lane : Lane Tid Loc Cell) (m m' : Memory Tid Loc Cell Nat T) : Prop where
  writeIdx : m'.stores lane.writeIdx = m.stores lane.writeIdx
  readIdx : m'.stores lane.readIdx = m.stores lane.readIdx
  cells : ∀ x, m'.cells (lane.slot x) = m.cells (lane.slot x)
  done : ∀ k, lane.Uses k → m'.done k = m.done k
  producer : m.views lane.producer ≤ m'.views lane.producer
  consumer : m.views lane.consumer ≤ m'.views lane.consumer

section frame

variable {n : Nat} {items : List T} {producer : Spsc.Producer T} {consumer : Spsc.Consumer T}

/-- **Frame rule.** -/
theorem Rep.frame (h : lane.Rep n items m producer consumer) (hsame : lane.Same m m')
    (hm' : m'.Consistent) (hknows : m'.Everywhere (fun _ => True) (lane.Knows n)) :
    lane.Rep n items m' producer consumer := by
  have hw := hsame.done (.store lane.writeIdx) (Or.inl rfl)
  have hr := hsame.done (.store lane.readIdx) (Or.inr rfl)
  have hp : ∀ k, m.views lane.producer k ≤ m'.views lane.producer k := hsame.producer
  have hc : ∀ k, m.views lane.consumer k ≤ m'.views lane.consumer k := hsame.consumer
  have hok := h.ok
  refine ⟨⟨?_, ?_, ?_, ?_, ?_, ?_, ?_, ?_, ?_, ?_⟩, hknows, ?_, ?_⟩
  · rw [hw]
    exact hok.published
  · rw [hsame.writeIdx]
    exact hok.writeIdx
  · rw [hsame.readIdx]
    exact hok.readIdx
  · intro u x
    rw [hsame.done (.write u (lane.slot x)) ⟨x, rfl⟩, hw]
    exact hok.written u x
  · intro u x
    rw [hsame.done (.read u (lane.slot x)) ⟨x, rfl⟩, hr]
    exact hok.taken u x
  · intro k v hk hv
    rw [hsame.cells]
    rw [hr] at hk
    exact hok.content k v hk hv
  · refine Nat.le_antisymm (hm'.known_le _ _) ?_
    rw [hw, ← hok.writer]
    exact hp _
  · refine Nat.le_antisymm (hm'.known_le _ _) ?_
    rw [hr, ← hok.reader]
    exact hc _
  · have := hok.room
    have := hp (.store lane.readIdx)
    omega
  · have := hok.behind
    have := hc (.store lane.writeIdx)
    omega
  · have hpc := h.producer
    have := hp (.store lane.readIdx)
    cases producer with
    | idle => trivial
    | loadedOwn item write next =>
      unfold ProducerOk at *
      rw [hw]
      exact hpc
    | checked item write next =>
      unfold ProducerOk at *
      rw [hw]
      exact ⟨hpc.1, hpc.2.1, by omega⟩
    | written item next =>
      unfold ProducerOk at *
      rw [hw, hsame.cells]
      exact ⟨hpc.1, hpc.2.1, by omega⟩
  · have hpc := h.consumer
    have := hc (.store lane.writeIdx)
    cases consumer with
    | idle => trivial
    | loadedOwn read =>
      unfold ConsumerOk at *
      rw [hr]
      exact hpc
    | checked read =>
      unfold ConsumerOk at *
      rw [hr]
      exact ⟨hpc.1, by omega⟩
    | taken out read =>
      unfold ConsumerOk at *
      rw [hr]
      exact ⟨hpc.1, by omega, hpc.2.2⟩

theorem Rep.setProducer (h : lane.Rep n items m producer consumer) {producer' : Spsc.Producer T}
    (hflight : producer'.inFlight = producer.inFlight) (hok : lane.ProducerOk n m producer') :
    lane.Rep n items m producer' consumer :=
  ⟨hflight ▸ h.ok, h.knows, hok, h.consumer⟩

theorem Rep.setConsumer (h : lane.Rep n items m producer consumer) {consumer' : Spsc.Consumer T}
    (hflight : consumer'.inFlight = consumer.inFlight) (hok : lane.ConsumerOk n items m consumer') :
    lane.Rep n items m producer consumer' :=
  ⟨hflight ▸ h.ok, h.knows, h.producer, hok⟩

variable [DecidableEq Loc] [DecidableEq Cell]

/-- Loads leave every lane alone. -/
theorem Same.of_load {t : Tid} {order : MemoryOrder} {l : Loc} {pos value : Nat}
    (hload : m.load t order l pos = some (value, m')) : lane.Same m m' := by
  obtain ⟨-, msg, -, -, rfl⟩ := Memory.load_eq_some.mp hload
  have hmono : ∀ u, m.views u ≤
      Function.update m.views t (m.loaded t order l pos msg.view) u := by
    intro u
    by_cases hu : u = t
    · subst hu
      simpa using Memory.le_loaded msg.view
    · simp [hu]
  exact ⟨rfl, rfl, fun _ => rfl, fun _ _ => rfl, hmono _, hmono _⟩

/-- So do loads that acquire. -/
theorem Rep.load (h : lane.Rep n items m producer consumer) (hm : m.Consistent) {t : Tid} {l : Loc}
    {pos value : Nat} (hload : m.load t .acquire l pos = some (value, m')) :
    lane.Rep n items m' producer consumer :=
  h.frame (.of_load hload) (hm.load hload) (h.knows.acquire (knows_joins lane n) hm hload)

end frame

/-! ## Section 5: The producer's accesses -/

section producer

variable [DecidableEq Loc] [DecidableEq Cell] {capacity : Capacity} {items : List T}
  {consumer : Spsc.Consumer T} {pos : Nat}

/-- What a load of an index returned, and what its thread knows then. -/
theorem load_spec (hm : m.Consistent) {t : Tid} {l : Loc} {value : Nat}
    (hload : m.load t .acquire l pos = some (value, m')) :
    m.views t (.store l) ≤ pos ∧ pos ≤ m.done (.store l) ∧ pos ≤ m'.views t (.store l) ∧
      m'.done = m.done ∧ ∃ msg, (m.stores l)[pos]? = some msg ∧ value = msg.value := by
  obtain ⟨hle, msg, hmsg, rfl, rfl⟩ := Memory.load_eq_some.mp hload
  have hlt := (List.getElem?_eq_some_iff.mp hmsg).1
  have hlen := hm.length l
  refine ⟨hle, by omega, ?_, rfl, msg, hmsg, rfl⟩
  rw [hm.loaded_acquire hmsg]
  show pos ≤ Function.update m.views t (m.views t ⊔ msg.view) t (.store l)
  rw [Function.update_self]
  exact Nat.le_trans (Nat.le_of_eq (hm.position l pos msg hmsg).symm) (Nat.le_max_right _ _)

theorem Rep.beginPush (h : lane.Rep capacity.size items m .idle consumer) (hm : m.Consistent)
    {item : T} {producer' : Spsc.Producer T}
    (hs : lane.beginPush capacity m item pos = some (m', producer')) :
    m' = m ∧ lane.Rep capacity.size items m producer' consumer := by
  simp only [Lane.beginPush, Option.bind_eq_bind, Option.bind_eq_some_iff, Prod.exists,
    Option.pure_def, Option.some.injEq, Prod.mk.injEq] at hs
  obtain ⟨write, m₁, hload, rfl, rfl⟩ := hs
  obtain ⟨rfl, msg, hmsg, rfl⟩ := hm.load_own h.ok.writer hload
  refine ⟨rfl, h.setProducer rfl ?_⟩
  unfold ProducerOk
  rw [h.ok.writeIdx _ msg hmsg, capacity.and_kMask, Nat.mod_add_mod]
  exact ⟨rfl, rfl⟩

/-- The load of `read_idx_`, and the check. -/
theorem Rep.checkRoom {item : T} {write next read : Nat}
    (h : lane.Rep capacity.size items m (.loadedOwn item write next) consumer)
    (hm : m.Consistent)
    (hload : m.load lane.producer .acquire lane.readIdx pos = some (read, m')) :
    (next = read ↔ m.done (.store lane.writeIdx) + 1 = pos + capacity.size) ∧
      (next ≠ read → lane.Rep capacity.size items m' (.checked item write next) consumer) ∧
      lane.Rep capacity.size items m' .idle consumer := by
  obtain ⟨hknown, hpos, hseen, hdone, msg, hmsg, rfl⟩ := load_spec hm hload
  obtain ⟨hwrite, hnext⟩ := h.producer
  have hpassed := h.passed_le hm
  have hroom := h.ok.room
  have hiff : next = msg.value ↔ m.done (.store lane.writeIdx) + 1 = pos + capacity.size := by
    rw [hnext, h.ok.readIdx pos msg hmsg]
    exact mod_eq_iff_turn (by omega) (by omega)
  have hrep := h.load hm hload
  refine ⟨hiff, ?_, hrep.setProducer rfl trivial⟩
  intro hne
  refine hrep.setProducer rfl ⟨by rw [hdone]; exact hwrite, by rw [hdone]; exact hnext, ?_⟩
  have := mt hiff.mpr hne
  rw [hdone]
  omega

/-- The write of the slot. -/
theorem Rep.writeSlot {item : T} {write next : Nat}
    (h : lane.Rep capacity.size items m (.checked item write next) consumer) (hm : m.Consistent) :
    lane.Rep capacity.size items (m.write lane.producer (lane.slot write) item)
      (.written item next) consumer := by
  obtain ⟨rfl, hnext, hroom⟩ := h.producer
  have hpassed := h.passed_le hm
  have hseen := hm.known_le lane.producer (.store lane.readIdx)
  have hok := h.ok
  -- the cells of the values that are left are others
  have hother : ∀ k, m.done (.store lane.readIdx) ≤ k → k < m.done (.store lane.writeIdx) →
      lane.slot (k % capacity.size) ≠
        lane.slot (m.done (.store lane.writeIdx) % capacity.size) := by
    intro k hk hlt heq
    exact mod_ne_of_lt hlt (by omega) (lane.slot_injective _ _ heq)
  refine ⟨⟨hok.published, hok.writeIdx, hok.readIdx, ?_, ?_, ?_, ?_, ?_, ?_, ?_⟩, ?_, ?_, ?_⟩
  · intro u x
    rw [Memory.write_done, View.next_of_ne (show Mark.store _ ≠ _ by simp)]
    have hwritten := hok.written u x
    by_cases hu : u = lane.producer
    · rw [if_pos hu] at hwritten ⊢
      subst hu
      simp only [Spsc.Producer.inFlight, Nat.add_zero] at hwritten
      simp only [Spsc.Producer.inFlight]
      rw [turns_succ, ← hwritten]
      by_cases hx : m.done (.store lane.writeIdx) % capacity.size = x
      · rw [if_pos hx, hx]
        exact View.next_self _ _
      · rw [if_neg hx]
        refine View.next_of_ne ?_
        intro heq
        exact hx (lane.slot_injective _ _ (Mark.write.inj heq).2).symm
    · rw [if_neg hu] at hwritten ⊢
      rw [← hwritten]
      refine View.next_of_ne ?_
      intro heq
      exact hu (Mark.write.inj heq).1
  · intro u x
    rw [Memory.write_done, View.next_of_ne (by simp), View.next_of_ne (by simp)]
    exact hok.taken u x
  · intro k v hk hv
    have hk' : m.done (.store lane.readIdx) ≤ k := hk
    have hlt : k < m.done (.store lane.writeIdx) := by
      rw [← hok.published]
      exact (List.getElem?_eq_some_iff.mp hv).1
    show Function.update m.cells _ item _ = v
    rw [Function.update_of_ne (hother k hk' hlt)]
    exact hok.content k v hk' hv
  · simpa [Memory.write, View.next] using hok.writer
  · simpa [Memory.write, View.next, lane.parties_ne.symm] using hok.reader
  · simpa [Memory.write, View.next] using hok.room
  · simpa [Memory.write, View.next, lane.parties_ne.symm] using hok.behind
  · refine ⟨h.knows.update fun _ => ?_, h.knows.message⟩
    exact Knows.access (h.knows.thread _ trivial) (by simp)
  · refine ⟨?_, hnext, ?_⟩
    · simp [Memory.write, View.next]
    · simpa [Memory.write, View.next] using hroom
  · have hc := h.consumer
    cases consumer with
    | idle => trivial
    | loadedOwn read => exact hc
    | checked read =>
      simpa [ConsumerOk, Memory.write, View.next, lane.parties_ne.symm] using hc
    | taken out read =>
      simpa [ConsumerOk, Memory.write, View.next, lane.parties_ne.symm] using hc

/-- The store that publishes the slot. -/
theorem Rep.publish {item : T} {next : Nat}
    (h : lane.Rep capacity.size items m (.written item next) consumer) (hm : m.Consistent) :
    lane.Rep capacity.size (items ++ [item])
      (m.store lane.producer .release lane.writeIdx next) .idle consumer := by
  obtain ⟨hitem, rfl, hroom⟩ := h.producer
  have hok := h.ok
  have hlen := hm.length lane.writeIdx
  have hread : m.done.next (.store lane.writeIdx) (.store lane.readIdx) =
      m.done (.store lane.readIdx) := View.next_of_ne (by simpa using lane.indices_ne.symm)
  have hwrites : ∀ u x, m.done (.write u (lane.slot x)) = if u = lane.producer then
      turns capacity.size (m.done (.store lane.writeIdx) + 1) x else 0 := hok.written
  have hkeep : m.stored lane.producer lane.writeIdx (.store lane.readIdx) =
      m.views lane.producer (.store lane.readIdx) :=
    Memory.stored_of_ne (by simpa using lane.indices_ne.symm)
  have hknows : lane.Knows capacity.size (m.stored lane.producer lane.writeIdx) := by
    intro x
    have hown := (hm.own lane.producer (lane.slot x)).2
    rw [hwrites, if_pos rfl] at hown
    have hold := (h.knows.thread lane.producer trivial x).2
    rw [Memory.stored_self, hkeep, Memory.stored_of_ne (by simp), Memory.stored_of_ne (by simp)]
    exact ⟨Nat.le_of_eq hown.symm, hold⟩
  refine ⟨⟨?_, ?_, ?_, ?_, ?_, ?_, ?_, ?_, ?_, ?_⟩, ?_, trivial, ?_⟩
  · simp [Memory.store, hok.published]
  · intro k msg hk
    simp only [Memory.store, Memory.add_stores, Function.update_self] at hk
    by_cases hlt : k < (m.stores lane.writeIdx).length
    · rw [List.getElem?_append_left hlt] at hk
      exact hok.writeIdx k msg hk
    · rw [List.getElem?_append_right (by omega), List.getElem?_singleton] at hk
      split at hk
      · obtain rfl := Option.some.inj hk
        obtain rfl : k = m.done (.store lane.writeIdx) + 1 := by omega
        rfl
      · cases hk
  · intro k msg hk
    simp only [Memory.store, Memory.add_stores] at hk
    rw [Function.update_of_ne lane.indices_ne.symm] at hk
    exact hok.readIdx k msg hk
  · intro u x
    simp only [Memory.store, Memory.add_done, Spsc.Producer.inFlight, View.next_self]
    rw [View.next_of_ne (by simp)]
    exact hwrites u x
  · intro u x
    simp only [Memory.store, Memory.add_done, hread]
    rw [View.next_of_ne (by simp)]
    exact hok.taken u x
  · intro k v hk hv
    simp only [Memory.store, Memory.add_done, hread] at hk
    simp only [Memory.store, Memory.add_cells]
    by_cases hlt : k < items.length
    · rw [List.getElem?_append_left hlt] at hv
      exact hok.content k v hk hv
    · rw [List.getElem?_append_right (by omega), List.getElem?_singleton] at hv
      split at hv
      · obtain rfl := Option.some.inj hv
        have hk' : k = m.done (.store lane.writeIdx) := by
          have := hok.published
          omega
        rw [hk']
        exact hitem
      · cases hv
  · simp [Memory.store, Memory.stored]
  · simpa [Memory.store, lane.parties_ne.symm, hread] using hok.reader
  · simp only [Memory.store, Memory.add_done, Memory.add_views, Function.update_self,
      View.next_self, hkeep]
    omega
  · simpa [Memory.store, lane.parties_ne.symm, hread] using hok.behind
  · exact h.knows.add (fun _ => hknows) hknows
  · have hc := h.consumer
    cases consumer with
    | idle => trivial
    | loadedOwn read => simpa [ConsumerOk, Memory.store, hread] using hc
    | checked read =>
      simpa [ConsumerOk, Memory.store, hread, lane.parties_ne.symm] using hc
    | taken out read =>
      obtain ⟨hr, hmore, hout⟩ := hc
      have hlt := (List.getElem?_eq_some_iff.mp hout).1
      simp only [ConsumerOk, Memory.store, Memory.add_done, Memory.add_views, hread]
      rw [Function.update_of_ne lane.parties_ne.symm, List.getElem?_append_left hlt]
      exact ⟨hr, hmore, hout⟩

end producer

/-! ## Section 6: The consumer's accesses -/

section consumer

variable [DecidableEq Loc] [DecidableEq Cell] {capacity : Capacity} {items : List T}
  {producer : Spsc.Producer T} {pos : Nat}

theorem Rep.beginPop (h : lane.Rep capacity.size items m producer .idle) (hm : m.Consistent)
    {consumer' : Spsc.Consumer T} (hs : lane.beginPop m pos = some (m', consumer')) :
    m' = m ∧ lane.Rep capacity.size items m producer consumer' := by
  simp only [Lane.beginPop, Option.bind_eq_bind, Option.bind_eq_some_iff, Prod.exists,
    Option.pure_def, Option.some.injEq, Prod.mk.injEq] at hs
  obtain ⟨read, m₁, hload, rfl, rfl⟩ := hs
  obtain ⟨rfl, msg, hmsg, rfl⟩ := hm.load_own h.ok.reader hload
  exact ⟨rfl, h.setConsumer rfl (h.ok.readIdx _ msg hmsg)⟩

/-- The load of `write_idx_`, and the check. -/
theorem Rep.checkMore {read write : Nat}
    (h : lane.Rep capacity.size items m producer (.loadedOwn read)) (hm : m.Consistent)
    (hload : m.load lane.consumer .acquire lane.writeIdx pos = some (write, m')) :
    (read = write ↔ pos = m.done (.store lane.readIdx)) ∧
      (read ≠ write → lane.Rep capacity.size items m' producer (.checked read)) ∧
      lane.Rep capacity.size items m' producer .idle := by
  obtain ⟨hknown, hpos, hseen, hdone, msg, hmsg, rfl⟩ := load_spec hm hload
  have hread : read = m.done (.store lane.readIdx) % capacity.size := h.consumer
  have hheld := h.held_lt hm
  have hbehind := h.ok.behind
  have hiff : read = msg.value ↔ pos = m.done (.store lane.readIdx) := by
    rw [hread, h.ok.writeIdx pos msg hmsg]
    constructor
    · intro heq
      by_contra hne
      exact mod_ne_of_lt (by omega) (by omega) heq
    · intro heq
      rw [heq]
  have hrep := h.load hm hload
  refine ⟨hiff, ?_, hrep.setConsumer rfl trivial⟩
  intro hne
  refine hrep.setConsumer rfl ⟨by rw [hdone]; exact hread, ?_⟩
  have := mt hiff.mpr hne
  rw [hdone]
  omega

/-- The read of the slot: the next value. -/
theorem Rep.readSlot {read : Nat} (h : lane.Rep capacity.size items m producer (.checked read))
    (hm : m.Consistent) :
    lane.Rep capacity.size items (m.read lane.consumer (lane.slot read)).2 producer
      (.taken (m.cells (lane.slot read)) read) := by
  obtain ⟨rfl, hmore⟩ := h.consumer
  have hok := h.ok
  have hseen := hm.known_le lane.consumer (.store lane.writeIdx)
  obtain ⟨v, hv⟩ : ∃ v, items[m.done (.store lane.readIdx)]? = some v := by
    refine ⟨_, List.getElem?_eq_getElem ?_⟩
    rw [hok.published]
    omega
  refine ⟨⟨hok.published, hok.writeIdx, hok.readIdx, ?_, ?_, hok.content, ?_, ?_, ?_, ?_⟩, ?_, ?_,
    ?_⟩
  · intro u x
    rw [Memory.read_done, View.next_of_ne (by simp), View.next_of_ne (by simp)]
    exact hok.written u x
  · intro u x
    rw [Memory.read_done, View.next_of_ne (show Mark.store _ ≠ _ by simp)]
    have htaken := hok.taken u x
    by_cases hu : u = lane.consumer
    · rw [if_pos hu] at htaken ⊢
      subst hu
      simp only [Spsc.Consumer.inFlight, Nat.add_zero] at htaken
      simp only [Spsc.Consumer.inFlight]
      rw [turns_succ, ← htaken]
      by_cases hx : m.done (.store lane.readIdx) % capacity.size = x
      · rw [if_pos hx, hx]
        exact View.next_self _ _
      · rw [if_neg hx]
        refine View.next_of_ne ?_
        intro heq
        exact hx (lane.slot_injective _ _ (Mark.read.inj heq).2).symm
    · rw [if_neg hu] at htaken ⊢
      rw [← htaken]
      refine View.next_of_ne ?_
      intro heq
      exact hu (Mark.read.inj heq).1
  · simpa [View.next, lane.parties_ne] using hok.writer
  · simpa [View.next] using hok.reader
  · simpa [View.next, lane.parties_ne] using hok.room
  · simpa [View.next] using hok.behind
  · refine ⟨h.knows.update fun _ => ?_, h.knows.message⟩
    exact Knows.access (h.knows.thread _ trivial) (by simp)
  · have hp := h.producer
    cases producer with
    | idle => trivial
    | loadedOwn item write next => exact hp
    | checked item write next => simpa [ProducerOk, View.next, lane.parties_ne] using hp
    | written item next => simpa [ProducerOk, View.next, lane.parties_ne] using hp
  · refine ⟨rfl, ?_, ?_⟩
    · simpa [View.next] using hmore
    · rw [hok.content _ v (Nat.le_refl _) hv]
      exact hv

/-- The store that passes the slot on. -/
theorem Rep.pass {out : T} {read : Nat}
    (h : lane.Rep capacity.size items m producer (.taken out read)) (hm : m.Consistent) :
    lane.Rep capacity.size items (m.store lane.consumer .release lane.readIdx
      ((read + 1) &&& capacity.kMask)) producer .idle := by
  obtain ⟨rfl, hmore, hout⟩ := h.consumer
  have hok := h.ok
  have hlen := hm.length lane.readIdx
  have hwrite : m.done.next (.store lane.readIdx) (.store lane.writeIdx) =
      m.done (.store lane.writeIdx) := View.next_of_ne (by simpa using lane.indices_ne)
  have hreads : ∀ u x, m.done (.read u (lane.slot x)) = if u = lane.consumer then
      turns capacity.size (m.done (.store lane.readIdx) + 1) x else 0 := hok.taken
  have hkeep : m.stored lane.consumer lane.readIdx (.store lane.writeIdx) =
      m.views lane.consumer (.store lane.writeIdx) :=
    Memory.stored_of_ne (by simpa using lane.indices_ne)
  have hknows : lane.Knows capacity.size (m.stored lane.consumer lane.readIdx) := by
    intro x
    have hown := (hm.own lane.consumer (lane.slot x)).1
    rw [hreads, if_pos rfl] at hown
    have hold := (h.knows.thread lane.consumer trivial x).1
    rw [Memory.stored_self, hkeep, Memory.stored_of_ne (by simp), Memory.stored_of_ne (by simp)]
    exact ⟨hold, Nat.le_of_eq hown.symm⟩
  refine ⟨⟨?_, ?_, ?_, ?_, ?_, ?_, ?_, ?_, ?_, ?_⟩, ?_, ?_, trivial⟩
  · simpa [Memory.store, hwrite] using hok.published
  · intro k msg hk
    simp only [Memory.store, Memory.add_stores] at hk
    rw [Function.update_of_ne lane.indices_ne] at hk
    exact hok.writeIdx k msg hk
  · intro k msg hk
    simp only [Memory.store, Memory.add_stores, Function.update_self] at hk
    by_cases hlt : k < (m.stores lane.readIdx).length
    · rw [List.getElem?_append_left hlt] at hk
      exact hok.readIdx k msg hk
    · rw [List.getElem?_append_right (by omega), List.getElem?_singleton] at hk
      split at hk
      · obtain rfl := Option.some.inj hk
        obtain rfl : k = m.done (.store lane.readIdx) + 1 := by omega
        show _ &&& _ = _
        rw [capacity.and_kMask, Nat.mod_add_mod]
      · cases hk
  · intro u x
    simp only [Memory.store, Memory.add_done, hwrite]
    rw [View.next_of_ne (by simp)]
    exact hok.written u x
  · intro u x
    simp only [Memory.store, Memory.add_done, Spsc.Consumer.inFlight, View.next_self]
    rw [View.next_of_ne (by simp)]
    exact hreads u x
  · intro k v hk hv
    simp only [Memory.store, Memory.add_done, View.next_self] at hk
    exact hok.content k v (by omega) hv
  · simpa [Memory.store, lane.parties_ne, hwrite] using hok.writer
  · simp [Memory.store, Memory.stored]
  · simpa [Memory.store, lane.parties_ne, hwrite] using hok.room
  · simp only [Memory.store, Memory.add_done, Memory.add_views, Function.update_self,
      View.next_self, hkeep]
    omega
  · exact h.knows.add (fun _ => hknows) hknows
  · have hp := h.producer
    cases producer with
    | idle => trivial
    | loadedOwn item write next => simpa [ProducerOk, Memory.store, hwrite] using hp
    | checked item write next =>
      simpa [ProducerOk, Memory.store, hwrite, lane.parties_ne] using hp
    | written item next =>
      simpa [ProducerOk, Memory.store, hwrite, lane.parties_ne] using hp

end consumer

/-! ## Section 7: One access -/

section steps

variable [DecidableEq Loc] [DecidableEq Cell] {capacity : Capacity} {items : List T}
  {producer producer' : Spsc.Producer T} {consumer consumer' : Spsc.Consumer T} {pos : Nat}
  {ev : Spsc.Event T}

open Spsc (publishedValues poppedValues)

/-- **The producer's access.**  A push is refused when the pops it sees leave
    no room. -/
theorem Rep.producerStep (h : lane.Rep capacity.size items m producer consumer)
    (hm : m.Consistent)
    (hs : lane.producerStep .source m pos producer = some (ev, m', producer')) :
    m'.Consistent ∧
      lane.Rep capacity.size (items ++ publishedValues [ev]) m' producer' consumer ∧
      m'.done (.store lane.readIdx) = m.done (.store lane.readIdx) ∧ poppedValues [ev] = [] ∧
      ((∃ item write next, producer = .loadedOwn item write next) →
        (ev = .full ↔ items.length + 1 = pos + capacity.size)) := by
  cases producer with
  | idle => cases hs
  | loadedOwn item write next =>
    simp only [Lane.producerStep, QueueOrders.source, Option.bind_eq_bind,
      Option.bind_eq_some_iff, Prod.exists] at hs
    obtain ⟨read, m₁, hload, hs⟩ := hs
    obtain ⟨hiff, hchecked, hidle⟩ := h.checkRoom hm hload
    rw [← h.ok.published] at hiff
    have hdone := (load_spec hm hload).2.2.2.1
    split at hs <;> obtain ⟨rfl, rfl, rfl⟩ := by simpa using hs
    · rename_i heq
      refine ⟨hm.load hload, ?_, by rw [hdone], rfl, fun _ => by simpa using hiff.mp heq⟩
      simpa [publishedValues] using hidle
    · rename_i hne
      refine ⟨hm.load hload, ?_, by rw [hdone], rfl, fun _ => by simpa using mt hiff.mpr hne⟩
      simpa [publishedValues] using hchecked hne
  | checked item write next =>
    obtain ⟨rfl, rfl, rfl⟩ := by simpa [Lane.producerStep] using hs
    refine ⟨hm.write _ _ _, by simpa [publishedValues] using h.writeSlot hm, ?_, rfl, by simp⟩
    rw [Memory.write_done, View.next_of_ne (by simp)]
  | written item next =>
    obtain ⟨rfl, rfl, rfl⟩ := by simpa [Lane.producerStep, QueueOrders.source] using hs
    refine ⟨hm.store _ _ _ _, h.publish hm, ?_, rfl, by simp⟩
    exact View.next_of_ne (by simpa using lane.indices_ne.symm)

/-- **The consumer's access.**  A pop finds nothing when it sees no push beyond
    its own index. -/
theorem Rep.consumerStep (h : lane.Rep capacity.size items m producer consumer)
    (hm : m.Consistent)
    (hs : lane.consumerStep capacity .source m pos consumer = some (ev, m', consumer')) :
    m'.Consistent ∧ lane.Rep capacity.size items m' producer consumer' ∧
      publishedValues [ev] = [] ∧
      items.take (m'.done (.store lane.readIdx)) =
        items.take (m.done (.store lane.readIdx)) ++ poppedValues [ev] ∧
      ((∃ read, consumer = .loadedOwn read) →
        (ev = .empty ↔ pos = m.done (.store lane.readIdx))) := by
  cases consumer with
  | idle => cases hs
  | loadedOwn read =>
    simp only [Lane.consumerStep, QueueOrders.source, Option.bind_eq_bind,
      Option.bind_eq_some_iff, Prod.exists] at hs
    obtain ⟨write, m₁, hload, hs⟩ := hs
    obtain ⟨hiff, hchecked, hidle⟩ := h.checkMore hm hload
    have hdone := (load_spec hm hload).2.2.2.1
    split at hs <;> obtain ⟨rfl, rfl, rfl⟩ := by simpa using hs
    · rename_i heq
      refine ⟨hm.load hload, hidle, rfl, ?_, fun _ => by simpa using hiff.mp heq⟩
      simp [hdone, poppedValues]
    · rename_i hne
      refine ⟨hm.load hload, hchecked hne, rfl, ?_, fun _ => by simpa using mt hiff.mpr hne⟩
      simp [hdone, poppedValues]
  | checked read =>
    obtain ⟨rfl, rfl, rfl⟩ := by simpa [Lane.consumerStep] using hs
    refine ⟨hm.read _ _, h.readSlot hm, rfl, ?_, by simp⟩
    rw [Memory.read_done, View.next_of_ne (by simp)]
    simp [poppedValues]
  | taken out read =>
    obtain ⟨rfl, rfl, rfl⟩ := by simpa [Lane.consumerStep, QueueOrders.source] using hs
    obtain ⟨-, -, hout⟩ := h.consumer
    refine ⟨hm.store _ _ _ _, h.pass hm, rfl, ?_, by simp⟩
    rw [Memory.store, Memory.add_done, View.next_self, List.take_add_one, hout]
    rfl

end steps

/-! ## Section 8: Calls that load the last stores -/

section last

variable [DecidableEq Loc] [DecidableEq Cell] {capacity : Capacity} {i j : Nat}

/-- A push gets as far as its check, if there is room. -/
theorem push_of_last (lane : Lane Tid Loc Cell) (orders : QueueOrders) (hm : m.Consistent)
    (hw : m.Last lane.writeIdx i (i % capacity.size))
    (hr : m.Last lane.readIdx j (j % capacity.size))
    (hroom : (i + 1) % capacity.size ≠ j % capacity.size) (item : T) :
    ∃ m₁ m₂, lane.beginPush capacity m item i =
        some (m₁, .loadedOwn item (i % capacity.size) ((i + 1) % capacity.size)) ∧
      lane.producerStep orders m₁ j
          (.loadedOwn item (i % capacity.size) ((i + 1) % capacity.size)) =
        some (.silent, m₂, .checked item (i % capacity.size) ((i + 1) % capacity.size)) ∧
      m₂.Consistent ∧ m₂.stores = m.stores ∧ m₂.done = m.done ∧
      ∀ u, u ≠ lane.producer → m₂.views u = m.views u := by
  obtain ⟨m₁, hload₁, hstores₁, hdone₁, hviews₁⟩ := hw.load hm lane.producer .relaxed
  have hm₁ := hm.load hload₁
  obtain ⟨m₂, hload₂, hstores₂, hdone₂, hviews₂⟩ :=
    (hr.of_eq hstores₁ (by rw [hdone₁])).load hm₁ lane.producer orders.pushLoad
  refine ⟨m₁, m₂, ?_, ?_, hm₁.load hload₂, hstores₂.trans hstores₁, hdone₂.trans hdone₁,
    fun u hu => (hviews₂ u hu).trans (hviews₁ u hu)⟩
  · simp [Lane.beginPush, hload₁, capacity.and_kMask]
  · simp [Lane.producerStep, hload₂, hroom]

/-- A pop gets as far as its check, if there is something to read. -/
theorem pop_of_last (lane : Lane Tid Loc Cell) (orders : QueueOrders) (hm : m.Consistent)
    (hw : m.Last lane.writeIdx i (i % capacity.size))
    (hr : m.Last lane.readIdx j (j % capacity.size))
    (hmore : j % capacity.size ≠ i % capacity.size) :
    ∃ m₁ m₂, lane.beginPop m j = some (m₁, .loadedOwn (j % capacity.size)) ∧
      lane.consumerStep capacity orders m₁ i (.loadedOwn (j % capacity.size)) =
        some (.silent, m₂, .checked (j % capacity.size)) ∧
      m₂.Consistent ∧ m₂.stores = m.stores ∧ m₂.done = m.done := by
  obtain ⟨m₁, hload₁, hstores₁, hdone₁, -⟩ := hr.load hm lane.consumer .relaxed
  have hm₁ := hm.load hload₁
  obtain ⟨m₂, hload₂, hstores₂, hdone₂, -⟩ :=
    (hw.of_eq hstores₁ (by rw [hdone₁])).load hm₁ lane.consumer orders.popLoad
  refine ⟨m₁, m₂, ?_, ?_, hm₁.load hload₂, hstores₂.trans hstores₁, hdone₂.trans hdone₁⟩
  · simp [Lane.beginPop, hload₁]
  · simp [Lane.consumerStep, hload₂, hmore]

end last

end Lane

end LightningLob
