import LightningLob.InstrumentedCalls

/-! # Releasing a slot never grows the free list

    A logged call records every acquire and release of the pool, a release with
    the size and the capacity of the free list it finds.  Along any run of a
    book each release finds room, because `acquire` keeps the capacity of the
    free list in step with the slots, and the slot it releases was acquired
    since its last release, because it is one in use. -/

namespace LightningLob

open Ghost

/-! ## Section 1: The log of a pool -/

/-- What happened to the pool. -/
inductive PoolEvent where
  | acquired (idx : Nat)
  /-- The size and the capacity are those the release found. -/
  | released (idx size capacity : Nat)
  | reset
  deriving DecidableEq, Repr

/-- Every acquire and release is recorded, the latest first. -/
def Probe.logged (pf : Platform) : Probe (List PoolEvent) :=
  { Probe.plain (List PoolEvent) pf with
    acquire := fun p order => do
      let (idx, p') ← p.acquire pf order
      modify fun log => .acquired idx :: log
      pure (idx, p')
    release := fun p idx => do
      let p' ← p.release pf idx
      modify fun log => .released idx p.freeList.length p.freeCapacity :: log
      pure p'
    reset := fun p => do
      modify fun log => .reset :: log
      pure p.reset }

/-- The slot was released and not acquired since. -/
def Outstanding (i : Nat) (log : List PoolEvent) : Prop :=
  ∃ later size capacity earlier, log = later ++ .released i size capacity :: earlier ∧
    .acquired i ∉ later

/-- Every release of the log found room for the slot, and the slot not
    outstanding. -/
def Disciplined (log : List PoolEvent) : Prop :=
  ∀ i size capacity earlier, .released i size capacity :: earlier <:+ log →
    size < capacity ∧ ¬ Outstanding i earlier

section logs

variable {i j size capacity : Nat} {log : List PoolEvent}

theorem Outstanding.of_cons {e : PoolEvent} (h : Outstanding i (e :: log))
    (he : ∀ size capacity, e ≠ .released i size capacity) : Outstanding i log := by
  obtain ⟨later, size, capacity, earlier, hlog, hnot⟩ := h
  cases later with
  | nil =>
    cases hlog
    exact (he size capacity rfl).elim
  | cons e' later =>
    obtain ⟨-, rfl⟩ := List.cons.inj hlog
    exact ⟨later, size, capacity, earlier, rfl, fun hmem => hnot (by simp [hmem])⟩

/-- An acquired slot is not outstanding. -/
theorem not_outstanding_acquired : ¬ Outstanding i (.acquired i :: log) := by
  rintro ⟨later, size, capacity, earlier, hlog, hnot⟩
  cases later with
  | nil => cases hlog
  | cons e later =>
    obtain ⟨rfl, -⟩ := List.cons.inj hlog
    exact hnot (by simp)

theorem Disciplined.cons {e : PoolEvent} (h : Disciplined log)
    (he : ∀ i size capacity, e = .released i size capacity →
      size < capacity ∧ ¬ Outstanding i log) : Disciplined (e :: log) := by
  intro i size capacity earlier hsuffix
  rcases List.suffix_cons_iff.mp hsuffix with heq | hsuffix
  · obtain ⟨rfl, rfl⟩ := List.cons.inj heq
    exact he i size capacity rfl
  · exact h i size capacity earlier hsuffix

end logs

/-! ## Section 2: The invariant of a log and its pool -/

/-- The free list can hold every slot without reallocating. -/
structure OrderPool.Roomy (p : OrderPool) : Prop where
  nodes : p.nodes.length ≤ p.nodesCapacity
  free : p.nodes.length ≤ p.freeCapacity

/-- The log so far, and the pool it led to. -/
structure LogInvariant (log : List PoolEvent) (p : OrderPool) : Prop where
  roomy : p.Roomy
  disciplined : Disciplined log
  live : ∀ i, p.Live i → ¬ Outstanding i log

section pools

variable {pf : Platform} {p p' : OrderPool} {i : Nat} {log : List PoolEvent}

/-- While a slot is in use, the free list is shorter than the pool. -/
theorem OrderPool.Intact.free_lt (h : p.Intact) (hi : p.Live i) :
    p.freeList.length < p.nodes.length := by
  have hnd : (i :: p.freeList).Nodup := List.nodup_cons.mpr ⟨hi.2, h.nodup⟩
  have hsub : i :: p.freeList ⊆ List.range p.nodes.length := by
    intro j hj
    rcases List.mem_cons.mp hj with rfl | hj
    · exact List.mem_range.mpr hi.1
    · exact List.mem_range.mpr (h.lt j hj)
  have hle := (List.subperm_of_subset hnd hsub).length_le
  rw [List.length_cons, List.length_range] at hle
  exact hle

theorem Platform.lt_pushBack (pf : Platform) {cap size : Nat} (h : size ≤ cap) :
    size < pf.pushBack cap size := by
  unfold Platform.pushBack
  split
  · assumption
  · exact Nat.lt_of_le_of_lt h (pf.lt_grow cap)

theorem Platform.le_reserve (pf : Platform) (cap n : Nat) : n ≤ pf.reserve cap n := by
  unfold Platform.reserve
  split
  · assumption
  · exact pf.le_allocate n

/-- What an acquire does to the storage. -/
theorem OrderPool.acquire_cases {order : Order} (h : p.acquire pf order = some (i, p')) :
    (p.freeList = i :: p'.freeList ∧ p'.nodes.length = p.nodes.length ∧
      p'.nodesCapacity = p.nodesCapacity ∧ p'.freeCapacity = p.freeCapacity) ∨
    (p.freeList = [] ∧ p'.freeList = [] ∧ i = p.nodes.length ∧
      p'.nodes.length = p.nodes.length + 1 ∧
      p'.nodesCapacity = pf.pushBack p.nodesCapacity p.nodes.length ∧
      p'.freeCapacity = pf.reserve p.freeCapacity p'.nodesCapacity) := by
  unfold OrderPool.acquire at h
  cases hfree : p.freeList with
  | nil =>
    rw [hfree] at h
    cases h
    exact Or.inr ⟨rfl, rfl, rfl, by simp, rfl, rfl⟩
  | cons idx rest =>
    rw [hfree] at h
    obtain ⟨p₁, hupd, h⟩ := Option.bind_eq_some_iff.mp h
    cases h
    have hsame := OrderPool.update_storage hupd
    exact Or.inl ⟨by rw [hsame.free], hsame.size, hsame.nodesCapacity, hsame.freeCapacity⟩

/-- An acquire puts one more slot in use. -/
theorem LogInvariant.acquire (h : LogInvariant log p) {order : Order}
    (hacq : p.acquire pf order = some (i, p')) : LogInvariant (.acquired i :: log) p' := by
  have hlive : ∀ j, p'.Live j → j ≠ i → p.Live j := by
    intro j ⟨hlt, hfree⟩ hj
    rcases OrderPool.acquire_cases hacq with ⟨hf, hsize, -⟩ | ⟨hf, hf', rfl, hsize, -⟩
    · refine ⟨hsize ▸ hlt, fun hmem => ?_⟩
      rw [hf, List.mem_cons] at hmem
      exact hmem.elim hj hfree
    · refine ⟨by omega, ?_⟩
      rw [hf]
      exact List.not_mem_nil
  refine ⟨?_, h.disciplined.cons (by simp), ?_⟩
  · rcases OrderPool.acquire_cases hacq with ⟨-, hsize, hn, hf⟩ | ⟨-, -, -, hsize, hn, hf⟩
    · exact ⟨by rw [hsize, hn]; exact h.roomy.nodes, by rw [hsize, hf]; exact h.roomy.free⟩
    · -- the cold path reserves the capacity of the slots for the free list
      have hnodes : p'.nodes.length ≤ p'.nodesCapacity := by
        rw [hsize, hn]
        exact pf.lt_pushBack h.roomy.nodes
      exact ⟨hnodes, by rw [hf]; exact Nat.le_trans hnodes (pf.le_reserve _ _)⟩
  · intro j hj
    by_cases hji : j = i
    · rw [hji]
      exact not_outstanding_acquired
    · exact fun hout => h.live j (hlive j hj hji) (hout.of_cons (by simp))

/-- A release of a slot in use finds room, and the slot not outstanding. -/
theorem LogInvariant.release (h : LogInvariant log p) (hp : p.Intact) (hi : p.Live i)
    (hrel : p.release pf i = some p') :
    LogInvariant (.released i p.freeList.length p.freeCapacity :: log) p' := by
  have hroom : p.freeList.length < p.freeCapacity :=
    Nat.lt_of_lt_of_le (hp.free_lt hi) h.roomy.free
  rw [OrderPool.release, if_pos hi.1, Option.some.injEq] at hrel
  subst hrel
  refine ⟨⟨h.roomy.nodes, ?_⟩, h.disciplined.cons ?_, ?_⟩
  · show p.nodes.length ≤ pf.pushBack p.freeCapacity p.freeList.length
    rw [Platform.pushBack, if_pos hroom]
    exact h.roomy.free
  · intro j size capacity he
    cases he
    exact ⟨hroom, h.live i hi⟩
  · intro j ⟨hlt, hfree⟩ hout
    rw [List.mem_cons, not_or] at hfree
    refine h.live j ⟨hlt, hfree.2⟩ (hout.of_cons ?_)
    intro size capacity he
    cases he
    exact hfree.1 rfl

theorem Probe.logged_sound (pf : Platform) : (Probe.logged pf).Sound pf False LogInvariant where
  get _ := rfl
  update _ _ := rfl
  keep {log p p'} h hsame := by
    refine ⟨⟨?_, ?_⟩, h.disciplined, fun i hi => h.live i ?_⟩
    · rw [hsame.size, hsame.nodesCapacity]
      exact h.roomy.nodes
    · rw [hsame.size, hsame.freeCapacity]
      exact h.roomy.free
    · unfold OrderPool.Live at hi ⊢
      rw [hsame.size, hsame.free] at hi
      exact hi
  acquire {log p} order _ h := by
    rintro ⟨i, p'⟩ hacq
    refine ⟨.acquired i :: log, ?_, h.acquire hacq⟩
    simp only [logged, hacq]
    rfl
  release {log p i} hp hi h := by
    intro p' hrel
    refine ⟨.released i p.freeList.length p.freeCapacity :: log, ?_, h.release hp hi hrel⟩
    simp only [logged, hrel]
    rfl
  reset {log p} h := by
    intro p' hreset
    cases hreset
    refine ⟨.reset :: log, rfl, ⟨by simp [OrderPool.reset], by simp [OrderPool.reset]⟩,
      h.disciplined.cons (by simp), ?_⟩
    -- nothing is in use any more
    intro i hi
    exact absurd hi.1 (Nat.not_lt_zero i)
  insert _ := rfl
  found _ := rfl

end pools

/-! ## Section 3: Whole runs -/

/-- One logged call. -/
def loggedCall {S : Type} [LevelStore S] (pf : Platform) (s : OrderBook S × List PoolEvent)
    (a : Call × Clock) : Run (Reply × OrderBook S × List PoolEvent) := do
  let ((reply, b), log) ← (Probe.logged pf).call pf s.1 a s.2
  pure (reply, b, log)

/-- A whole session with the log of its pool. -/
def Approach.loggedSession (pf : Platform) (k : Approach) (symbol : SymbolId)
    (minPrice maxPrice : Int) (orderCapacityHint : Nat) (stpPolicy : SelfTradePrevention)
    (calls : List (Call × Clock)) : Run (List Reply × k.Book × List PoolEvent) := do
  let b ← k.create pf symbol minPrice maxPrice orderCapacityHint stpPolicy
  Runs.exec (loggedCall pf) (b, []) calls

section runs

variable {pf : Platform} {k : Approach} {symbol : SymbolId} {minPrice maxPrice : Int} {hint : Nat}
  {stpPolicy : SelfTradePrevention} {b : k.Book}

/-- A new pool has its capacities reserved and nothing in it. -/
theorem Approach.create_logInvariant
    (h : k.create pf symbol minPrice maxPrice hint stpPolicy = some b) :
    LogInvariant [] b.pool := by
  have hpool : b.pool = OrderPool.create pf hint := by
    cases k with
    | map | vector =>
      obtain ⟨ids, -, hb⟩ := Option.bind_eq_some_iff.mp h
      cases hb
      rfl
    | array =>
      obtain ⟨range, -, h⟩ := Option.bind_eq_some_iff.mp h
      obtain ⟨ids, -, hb⟩ := Option.bind_eq_some_iff.mp h
      cases hb
      rfl
  rw [hpool]
  refine ⟨⟨Nat.zero_le _, Nat.zero_le _⟩, ?_, fun i hi => absurd hi.1 (Nat.not_lt_zero i)⟩
  intro i size capacity earlier hsuffix
  simp at hsuffix

/-- A logged run and the plain one have come to the same book. -/
structure InStep (pf : Platform) (b : k.Book) (s : k.Book × List PoolEvent) : Prop where
  same : s.1 = b
  valid : b.Valid pf False
  log : LogInvariant s.2 b.pool

/-- A logged call answers like the plain one. -/
theorem InStep.call {s : k.Book × List PoolEvent} (h : InStep pf b s) (a : Call × Clock) :
    ∃ reply b' s', b.call pf a = some (reply, b') ∧ loggedCall pf s a = some (reply, s') ∧
      InStep pf b' s' := by
  obtain ⟨b₁, log⟩ := s
  obtain rfl : b₁ = b := h.same
  obtain ⟨c, now⟩ := a
  obtain ⟨b', hrun, hvalid, -⟩ := h.valid.call_spec c now False.elim
  obtain ⟨log', hcall, hlog'⟩ :=
    h.valid.call_follows (Probe.logged_sound pf) h.log c now False.elim _ hrun
  refine ⟨_, b', (b', log'), hrun, ?_, rfl, hvalid, hlog'⟩
  simp only [loggedCall, hcall]
  rfl

end runs

/-- **`release` never grows the free list.**  Every run of a book from its
    constructor, whatever the calls, logs the releases of its pool: each found
    the free list smaller than its capacity, and no slot was released twice
    without an acquire in between.  This is said of the source while fewer than
    `2 ^ 32 - 1` orders rest. -/
theorem release_never_grows (pf : Platform) (k : Approach) (symbol : SymbolId)
    (minPrice maxPrice : Int) (hint : Nat) (stpPolicy : SelfTradePrevention)
    (calls : List (Call × Clock)) (b₀ : k.Book)
    (hb₀ : k.create pf symbol minPrice maxPrice hint stpPolicy = some b₀) :
    ∃ replies b log,
      k.loggedSession pf symbol minPrice maxPrice hint stpPolicy calls = some (replies, b, log) ∧
      k.session pf symbol minPrice maxPrice hint stpPolicy calls = some (replies, b) ∧
      Disciplined log := by
  have hstep : ∀ (b : k.Book) (s : k.Book × List PoolEvent) (a a' : Call × Clock),
      InStep pf b s → a = a' → ∃ reply b' reply' s', b.call pf a = some (reply, b') ∧
        loggedCall pf s a' = some (reply', s') ∧ reply = reply' ∧ InStep pf b' s' := by
    rintro b s a _ h rfl
    obtain ⟨reply, b', s', hcall, hlogged, h'⟩ := h.call a
    exact ⟨reply, b', reply, s', hcall, hlogged, rfl, h'⟩
  -- the logged and the plain run go in lockstep
  obtain ⟨replies, b, replies', ⟨b', log⟩, hrun, hrun', hsame, h⟩ := Runs.exec_lockstep hstep
    (List.forall₂_same.mpr fun a (_ : a ∈ calls) => rfl) b₀ (b₀, [])
    ⟨rfl, (Approach.create_spec False hb₀).1, Approach.create_logInvariant hb₀⟩
  rw [List.forall₂_eq_eq_eq] at hsame
  obtain rfl : b' = b := h.same
  subst hsame
  refine ⟨replies, b', log, ?_, Approach.session_eq_some.mpr ⟨b₀, hb₀, hrun⟩, h.log.disciplined⟩
  simp only [Approach.loggedSession, hb₀, Option.bind_eq_bind, Option.bind_some, hrun']

/-- A slot that is acquired and released twice, in a pool that starts without
    capacity: the first acquire makes room for both releases. -/
theorem release_never_grows_reused_slot :
    ∃ replies b log, Approach.map.loggedSession .int64 1 90 110 0 .none
        [(.add ⟨1, 100, 5, 0, 0, 1, 7, .sell, .limit, .gtc⟩, fun _ => 0), (.cancel 1, fun _ => 0),
         (.add ⟨2, 100, 5, 0, 0, 1, 7, .sell, .limit, .gtc⟩, fun _ => 0),
         (.add ⟨3, 0, 5, 0, 0, 1, 8, .buy, .market, .ioc⟩, fun _ => 0)] =
        some (replies, b, log) ∧
      log = [.released 0 0 1, .acquired 0, .released 0 0 1, .acquired 0] ∧ Disciplined log := by
  obtain ⟨b₀, hb₀⟩ : ∃ b₀, Approach.map.create .int64 1 90 110 0 .none = some b₀ := ⟨_, rfl⟩
  obtain ⟨replies, b, log, hrun, -, hlog⟩ := release_never_grows .int64 .map 1 90 110 0 .none
    [(.add ⟨1, 100, 5, 0, 0, 1, 7, .sell, .limit, .gtc⟩, fun _ => 0), (.cancel 1, fun _ => 0),
     (.add ⟨2, 100, 5, 0, 0, 1, 7, .sell, .limit, .gtc⟩, fun _ => 0),
     (.add ⟨3, 0, 5, 0, 0, 1, 8, .buy, .market, .ioc⟩, fun _ => 0)] b₀ hb₀
  refine ⟨replies, b, log, hrun, ?_, hlog⟩
  -- the log itself is computed
  have hends : (Approach.map.loggedSession .int64 1 90 110 0 .none
      [(.add ⟨1, 100, 5, 0, 0, 1, 7, .sell, .limit, .gtc⟩, fun _ => 0), (.cancel 1, fun _ => 0),
       (.add ⟨2, 100, 5, 0, 0, 1, 7, .sell, .limit, .gtc⟩, fun _ => 0),
       (.add ⟨3, 0, 5, 0, 0, 1, 8, .buy, .market, .ioc⟩, fun _ => 0)]).map (fun r => r.2.2) =
      some [.released 0 0 1, .acquired 0, .released 0 0 1, .acquired 0] := by
    decide +kernel
  rw [hrun] at hends
  exact Option.some.inj hends

end LightningLob
