import LightningLob.QueueMemoryOrder

/-! # Several queues in one memory

    What the accesses to one lane leave alone: the other lanes, the other
    locations, and what the other threads know. -/

namespace LightningLob

open ReleaseAcquire

namespace Lane

variable {Tid Loc Cell T : Type} {lane : Lane Tid Loc Cell} {m m' : Memory Tid Loc Cell Nat T}
  [DecidableEq Tid]

/-! ## Section 1: Several lanes -/

/-- Two lanes that share neither an index nor a slot.  They may share a thread. -/
structure Apart (lane other : Lane Tid Loc Cell) : Prop where
  indices : ∀ l, l = other.writeIdx ∨ l = other.readIdx → l ≠ lane.writeIdx ∧ l ≠ lane.readIdx
  slots : ∀ x y, other.slot x ≠ lane.slot y

section apart

variable [DecidableEq Loc] [DecidableEq Cell] {n : Nat} {items : List T}
  {producer : Spsc.Producer T} {consumer : Spsc.Consumer T} {other : Lane Tid Loc Cell} {t : Tid}
  {l : Loc} {c : Cell}

/-- The number of a store elsewhere says nothing of the lane. -/
theorem knows_upTo (n i : Nat) (hw : l ≠ lane.writeIdx) (hr : l ≠ lane.readIdx) :
    lane.Knows n (View.upTo (.store l) i) := by
  intro x
  simp [View.upTo, hw.symm, hr.symm, turns]

/-- A load from another location. -/
theorem Rep.loadElsewhere (h : lane.Rep n items m producer consumer) (hm : m.Consistent)
    (hw : l ≠ lane.writeIdx) (hr : l ≠ lane.readIdx) {order : MemoryOrder} {pos value : Nat}
    (hload : m.load t order l pos = some (value, m')) :
    lane.Rep n items m' producer consumer :=
  h.frame (.of_load hload) (hm.load hload)
    (h.knows.load (knows_joins lane n) (knows_upTo n pos hw hr) hload)

/-- A store to another location. -/
theorem Rep.addElsewhere (h : lane.Rep n items m producer consumer)
    {msg : Message Tid Loc Cell Nat} (hm' : (m.add t l msg).Consistent) (hm : m.Consistent)
    (hw : l ≠ lane.writeIdx) (hr : l ≠ lane.readIdx) (hmsg : lane.Knows n msg.view) :
    lane.Rep n items (m.add t l msg) producer consumer := by
  have hknows : lane.Knows n (m.stored t l) := (h.knows.thread t trivial).store hw hr
  have hle : ∀ u, m.views u ≤ Function.update m.views t (m.stored t l) u := by
    intro u
    by_cases hu : u = t
    · subst hu
      rw [Function.update_self]
      exact hm.le_stored u l
    · rw [Function.update_of_ne hu]
  refine h.frame ⟨?_, ?_, fun _ => rfl, ?_, hle _, hle _⟩ hm' (h.knows.add (fun _ => hknows) hmsg)
  · exact Function.update_of_ne hw.symm _ _
  · exact Function.update_of_ne hr.symm _ _
  · intro k hk
    refine View.next_of_ne ?_
    rintro rfl
    exact hk.elim hw hr

theorem Rep.storeElsewhere (h : lane.Rep n items m producer consumer) (hm : m.Consistent)
    (hw : l ≠ lane.writeIdx) (hr : l ≠ lane.readIdx) (t : Tid) (order : MemoryOrder)
    (value : Nat) : lane.Rep n items (m.store t order l value) producer consumer := by
  refine h.addElsewhere (hm.store t order l value) hm hw hr ?_
  show lane.Knows n (m.released t order l)
  unfold Memory.released
  split
  · exact (h.knows.thread t trivial).store hw hr
  · exact knows_upTo n _ hw hr

theorem Rep.accessElsewhere (h : lane.Rep n items m producer consumer)
    {k : Mark Tid Loc Cell} (hk : ∀ l, k ≠ .store l) (huses : ¬ lane.Uses k)
    (hcells : ∀ x, m'.cells (lane.slot x) = m.cells (lane.slot x)) (hstores : m'.stores = m.stores)
    (hdone : m'.done = m.done.next k)
    (hviews : m'.views = Function.update m.views t ((m.views t).next k)) (hm' : m'.Consistent) :
    lane.Rep n items m' producer consumer := by
  have hle : ∀ u, m.views u ≤ m'.views u := by
    intro u
    rw [hviews]
    by_cases hu : u = t
    · subst hu
      rw [Function.update_self]
      exact View.le_next _ _
    · rw [Function.update_of_ne hu]
  refine h.frame ⟨by rw [hstores], by rw [hstores], hcells, ?_, hle _, hle _⟩ hm' ⟨?_, ?_⟩
  · intro k' hk'
    rw [hdone]
    refine View.next_of_ne ?_
    rintro rfl
    exact huses hk'
  · rw [hviews]
    exact fun u _ => h.knows.update (fun _ => (h.knows.thread t trivial).access hk) u trivial
  · rw [hstores]
    exact h.knows.message

/-- **The other lane's producer** leaves this one alone. -/
theorem Rep.producerElsewhere (h : lane.Rep n items m producer consumer) (hm : m.Consistent)
    (hapart : lane.Apart other) {pos : Nat} {pc pc' : Spsc.Producer T} {ev : Spsc.Event T}
    (hs : other.producerStep .source m pos pc = some (ev, m', pc')) :
    lane.Rep n items m' producer consumer := by
  cases pc with
  | idle => cases hs
  | loadedOwn item write next =>
    obtain ⟨read, hload⟩ := load_of_producerStep hs
    exact h.load hm hload
  | checked item write next =>
    obtain ⟨-, rfl, -⟩ := by simpa [Lane.producerStep] using hs
    refine h.accessElsewhere (t := other.producer) (by simp) ?_ ?_ rfl rfl rfl (hm.write _ _ _)
    · rintro ⟨x, hx⟩
      exact hapart.slots _ _ hx
    · intro x
      exact Function.update_of_ne (hapart.slots _ _).symm _ _
  | written item next =>
    obtain ⟨-, rfl, -⟩ := by simpa [Lane.producerStep] using hs
    obtain ⟨hw, hr⟩ := hapart.indices _ (Or.inl rfl)
    exact h.storeElsewhere hm hw hr _ _ _

/-- **The other lane's consumer** leaves this one alone. -/
theorem Rep.consumerElsewhere (h : lane.Rep n items m producer consumer) (hm : m.Consistent)
    (hapart : lane.Apart other) {capacity : Capacity} {pos : Nat} {pc pc' : Spsc.Consumer T}
    {ev : Spsc.Event T}
    (hs : other.consumerStep capacity .source m pos pc = some (ev, m', pc')) :
    lane.Rep n items m' producer consumer := by
  cases pc with
  | idle => cases hs
  | loadedOwn read =>
    obtain ⟨write, hload⟩ := load_of_consumerStep hs
    exact h.load hm hload
  | checked read =>
    obtain ⟨-, rfl, -⟩ := by simpa [Lane.consumerStep] using hs
    refine h.accessElsewhere (t := other.consumer) (by simp) ?_ (fun _ => rfl) rfl rfl rfl
      (hm.read _ _)
    rintro ⟨x, hx⟩
    exact hapart.slots _ _ hx
  | taken out read =>
    obtain ⟨-, rfl, -⟩ := by simpa [Lane.consumerStep] using hs
    obtain ⟨hw, hr⟩ := hapart.indices _ (Or.inr rfl)
    exact h.storeElsewhere hm hw hr _ _ _

end apart

/-! ## Section 2: What a call does not touch -/

section keeps

variable [DecidableEq Loc] [DecidableEq Cell] {capacity : Capacity} {pos : Nat}
  {ev : Spsc.Event T}

/-- A push stores to `write_idx_` only, and only its thread learns anything. -/
theorem producerStep_keeps {pc pc' : Spsc.Producer T} {orders : QueueOrders}
    (hs : lane.producerStep orders m pos pc = some (ev, m', pc')) :
    (∀ l, l ≠ lane.writeIdx → m'.stores l = m.stores l ∧
      m'.done (.store l) = m.done (.store l)) ∧
    ∀ u, u ≠ lane.producer → m'.views u = m.views u := by
  cases pc with
  | idle => cases hs
  | loadedOwn item write next =>
    obtain ⟨read, hload⟩ := load_of_producerStep hs
    obtain ⟨-, msg, -, -, rfl⟩ := Memory.load_eq_some.mp hload
    exact ⟨fun _ _ => ⟨rfl, rfl⟩, fun u hu => Function.update_of_ne hu _ _⟩
  | checked item write next =>
    obtain ⟨-, rfl, -⟩ := by simpa [Lane.producerStep] using hs
    exact ⟨fun l _ => ⟨rfl, Memory.write_done_store ..⟩, fun u hu => Function.update_of_ne hu _ _⟩
  | written item next =>
    obtain ⟨-, rfl, -⟩ := by simpa [Lane.producerStep] using hs
    exact ⟨fun l hl => ⟨Function.update_of_ne hl _ _, View.next_of_ne (by simpa using hl)⟩,
      fun u hu => Function.update_of_ne hu _ _⟩

/-- A pop stores to `read_idx_` only, and only its thread learns anything. -/
theorem consumerStep_keeps {pc pc' : Spsc.Consumer T} {orders : QueueOrders}
    (hs : lane.consumerStep capacity orders m pos pc = some (ev, m', pc')) :
    (∀ l, l ≠ lane.readIdx → m'.stores l = m.stores l ∧
      m'.done (.store l) = m.done (.store l)) ∧
    ∀ u, u ≠ lane.consumer → m'.views u = m.views u := by
  cases pc with
  | idle => cases hs
  | loadedOwn read =>
    obtain ⟨write, hload⟩ := load_of_consumerStep hs
    obtain ⟨-, msg, -, -, rfl⟩ := Memory.load_eq_some.mp hload
    exact ⟨fun _ _ => ⟨rfl, rfl⟩, fun u hu => Function.update_of_ne hu _ _⟩
  | checked read =>
    obtain ⟨-, rfl, -⟩ := by simpa [Lane.consumerStep] using hs
    exact ⟨fun l _ => ⟨rfl, Memory.read_done_store ..⟩, fun u hu => Function.update_of_ne hu _ _⟩
  | taken out read =>
    obtain ⟨-, rfl, -⟩ := by simpa [Lane.consumerStep] using hs
    exact ⟨fun l hl => ⟨Function.update_of_ne hl _ _, View.next_of_ne (by simpa using hl)⟩,
      fun u hu => Function.update_of_ne hu _ _⟩

/-- The call goes on with its item, or returns. -/
theorem producerStep_item {pc pc' : Spsc.Producer T} {orders : QueueOrders}
    (hs : lane.producerStep orders m pos pc = some (ev, m', pc')) :
    (ev = .silent ∧ pc'.item? = pc.item?) ∨
      (pc' = .idle ∧ (ev = .full ∨ ∃ item, pc.item? = some item ∧ ev = .pushed item)) := by
  cases pc with
  | idle => cases hs
  | loadedOwn item write next =>
    obtain ⟨⟨read, m₁⟩, -, hs⟩ := Option.bind_eq_some_iff.mp hs
    simp only at hs
    split at hs
    · obtain ⟨rfl, -, rfl⟩ := by simpa using hs
      exact Or.inr ⟨rfl, Or.inl rfl⟩
    · obtain ⟨rfl, -, rfl⟩ := by simpa using hs
      exact Or.inl ⟨rfl, rfl⟩
  | checked item write next =>
    obtain ⟨rfl, -, rfl⟩ := by simpa [Lane.producerStep] using hs
    exact Or.inl ⟨rfl, rfl⟩
  | written item next =>
    obtain ⟨rfl, -, rfl⟩ := by simpa [Lane.producerStep] using hs
    exact Or.inr ⟨rfl, Or.inr ⟨item, rfl, rfl⟩⟩

/-- The call goes on, or returns; it passes a slot when it returns its value. -/
theorem consumerStep_shows {pc pc' : Spsc.Consumer T} {orders : QueueOrders}
    (hs : lane.consumerStep capacity orders m pos pc = some (ev, m', pc')) :
    (m'.done (.store lane.readIdx) = m.done (.store lane.readIdx) ∧
      (ev = .silent ∨ (ev = .empty ∧ pc' = .idle))) ∨
    ∃ out read, pc = .taken out read ∧ ev = .popped out ∧ pc' = .idle ∧
      m'.done (.store lane.readIdx) = m.done (.store lane.readIdx) + 1 := by
  cases pc with
  | idle => cases hs
  | loadedOwn read =>
    obtain ⟨write, hload⟩ := load_of_consumerStep hs
    obtain ⟨-, msg, -, -, rfl⟩ := Memory.load_eq_some.mp hload
    obtain ⟨⟨write, m₁⟩, -, hs⟩ := Option.bind_eq_some_iff.mp hs
    simp only at hs
    split at hs
    · obtain ⟨rfl, -, rfl⟩ := by simpa using hs
      exact Or.inl ⟨rfl, Or.inr ⟨rfl, rfl⟩⟩
    · obtain ⟨rfl, -, rfl⟩ := by simpa using hs
      exact Or.inl ⟨rfl, Or.inl rfl⟩
  | checked read =>
    obtain ⟨rfl, rfl, -⟩ := by simpa [Lane.consumerStep] using hs
    exact Or.inl ⟨Memory.read_done_store .., Or.inl rfl⟩
  | taken out read =>
    obtain ⟨rfl, rfl, rfl⟩ := by simpa [Lane.consumerStep] using hs
    exact Or.inr ⟨out, read, rfl, rfl, rfl, View.next_self ..⟩

/-- A fact that views share, and that no access of the call touches, stays
    known to all who knew it. -/
theorem everywhere_producerStep {who : Tid → Prop} {P : View Tid Loc Cell → Prop}
    (hjoins : Memory.Joins P)
    (hgrows : ∀ v w, P v → v ≤ w → (∀ l, l ≠ lane.writeIdx → w (.store l) = v (.store l)) → P w)
    (h : m.Everywhere who P) (hwho : who lane.producer) (hm : m.Consistent)
    {pc pc' : Spsc.Producer T}
    (hs : lane.producerStep .source m pos pc = some (ev, m', pc')) : m'.Everywhere who P := by
  have hmine := h.thread _ hwho
  cases pc with
  | idle => cases hs
  | loadedOwn item write next =>
    obtain ⟨read, hload⟩ := load_of_producerStep hs
    exact h.acquire hjoins hm hload
  | checked item write next =>
    obtain ⟨-, rfl, -⟩ := by simpa [Lane.producerStep] using hs
    refine ⟨h.update fun _ => ?_, h.message⟩
    exact hgrows _ _ hmine (View.le_next _ _) fun l _ => View.next_of_ne (by simp)
  | written item next =>
    obtain ⟨-, rfl, -⟩ := by simpa [Lane.producerStep] using hs
    have hstored : P (m.stored lane.producer lane.writeIdx) :=
      hgrows _ _ hmine (hm.le_stored _ _) fun l hl => Memory.stored_of_ne (by simpa using hl)
    exact h.add (fun _ => hstored) hstored

theorem everywhere_consumerStep {who : Tid → Prop} {P : View Tid Loc Cell → Prop}
    (hjoins : Memory.Joins P)
    (hgrows : ∀ v w, P v → v ≤ w → (∀ l, l ≠ lane.readIdx → w (.store l) = v (.store l)) → P w)
    (h : m.Everywhere who P) (hwho : who lane.consumer) (hm : m.Consistent)
    {pc pc' : Spsc.Consumer T}
    (hs : lane.consumerStep capacity .source m pos pc = some (ev, m', pc')) :
    m'.Everywhere who P := by
  have hmine := h.thread _ hwho
  cases pc with
  | idle => cases hs
  | loadedOwn read =>
    obtain ⟨write, hload⟩ := load_of_consumerStep hs
    exact h.acquire hjoins hm hload
  | checked read =>
    obtain ⟨-, rfl, -⟩ := by simpa [Lane.consumerStep] using hs
    refine ⟨h.update fun _ => ?_, h.message⟩
    exact hgrows _ _ hmine (View.le_next _ _) fun l _ => View.next_of_ne (by simp)
  | taken out read =>
    obtain ⟨-, rfl, -⟩ := by simpa [Lane.consumerStep] using hs
    have hstored : P (m.stored lane.consumer lane.readIdx) :=
      hgrows _ _ hmine (hm.le_stored _ _) fun l hl => Memory.stored_of_ne (by simpa using hl)
    exact h.add (fun _ => hstored) hstored

/-- Nobody gets stuck in a call. -/
theorem exists_beginPush (lane : Lane Tid Loc Cell) (capacity : Capacity) (hm : m.Consistent)
    (item : T) : ∃ pos, (lane.beginPush capacity m item pos).isSome := by
  obtain ⟨pos, value, m', hload⟩ := hm.exists_load lane.producer .relaxed lane.writeIdx
  exact ⟨pos, by simp [Lane.beginPush, hload]⟩

theorem exists_producerStep (lane : Lane Tid Loc Cell) (hm : m.Consistent) {pc : Spsc.Producer T}
    (hbusy : pc ≠ .idle) : ∃ pos, (lane.producerStep .source m pos pc).isSome := by
  cases pc with
  | idle => exact absurd rfl hbusy
  | loadedOwn item write next =>
    obtain ⟨pos, value, m', hload⟩ := hm.exists_load lane.producer .acquire lane.readIdx
    refine ⟨pos, ?_⟩
    simp only [Lane.producerStep, QueueOrders.source, hload, Option.bind_eq_bind, Option.bind_some]
    split <;> rfl
  | checked | written => exact ⟨0, rfl⟩

theorem exists_beginPop (lane : Lane Tid Loc Cell) (hm : m.Consistent) :
    ∃ pos, (lane.beginPop m pos).isSome := by
  obtain ⟨pos, value, m', hload⟩ := hm.exists_load lane.consumer .relaxed lane.readIdx
  exact ⟨pos, by simp [Lane.beginPop, hload]⟩

theorem exists_consumerStep (lane : Lane Tid Loc Cell) (capacity : Capacity) (hm : m.Consistent)
    {pc : Spsc.Consumer T} (hbusy : pc ≠ .idle) :
    ∃ pos, (lane.consumerStep capacity .source m pos pc).isSome := by
  cases pc with
  | idle => exact absurd rfl hbusy
  | loadedOwn read =>
    obtain ⟨pos, value, m', hload⟩ := hm.exists_load lane.consumer .acquire lane.writeIdx
    refine ⟨pos, ?_⟩
    simp only [Lane.consumerStep, QueueOrders.source, hload, Option.bind_eq_bind, Option.bind_some]
    split <;> rfl
  | checked | taken => exact ⟨0, rfl⟩

end keeps

end Lane

end LightningLob
