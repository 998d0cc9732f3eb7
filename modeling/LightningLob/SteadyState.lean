import LightningLob.CallEffects
import LightningLob.FreeListRoom
import Mathlib.Order.Bounds.Basic

/-! # Storage in the steady state

    A pool that has been as deep before does not allocate again.  Matching and
    cancelling only give slots back; a call takes at most one slot, and takes
    it last.  So the slots of the pool are as many as the most orders that
    ever rested at once, and while no more rest than that, or than the
    capacity hint, neither the pool nor the id index reallocates. -/

namespace LightningLob

open LevelStore

/-! ## Section 1: Giving slots back -/

namespace Slots

variable {home : OrderId → Nat}

theorem shiftBack_length : ∀ (fuel : Nat) {slots slots' : List Slot} {i j : Nat},
    shiftBack home fuel slots i j = some slots' → slots'.length = slots.length := by
  intro fuel
  induction fuel with
  | zero => intro slots slots' i j h; cases h
  | succ fuel ih =>
    intro slots slots' i j h
    obtain ⟨s, -, h⟩ := Option.bind_eq_some_iff.mp h
    by_cases hk : s.key = kInvalidOrderId
    · rw [if_pos hk] at h
      cases h
      rfl
    · rw [if_neg hk] at h
      split at h
      · exact ih h
      · rw [ih h, List.length_set, List.length_set]

end Slots

namespace IdIndexMap

variable {m m' : IdIndexMap} {key : OrderId} {found : Bool}

/-- `erase` never reallocates. -/
theorem erase_length (h : m.erase key = some (found, m')) :
    m'.slots.length = m.slots.length := by
  obtain ⟨result, hrun, h⟩ := Option.bind_eq_some_iff.mp h
  obtain ⟨i, -, hrun⟩ := Option.bind_eq_some_iff.mp hrun
  obtain ⟨s, -, hrun⟩ := Option.bind_eq_some_iff.mp hrun
  by_cases hk : s.key = kInvalidOrderId
  · rw [if_pos hk] at hrun
    cases hrun
    cases h
    rfl
  · rw [if_neg hk] at hrun
    obtain ⟨slots', hshift, hrun⟩ := Option.bind_eq_some_iff.mp hrun
    cases hrun
    cases h
    exact (Slots.shiftBack_length _ hshift).trans (List.length_set ..)

theorem insertSlot_length {value : Nat} (h : m.insertSlot key value = some (found, m')) :
    m'.slots.length = m.slots.length := by
  obtain ⟨i, -, h⟩ := Option.bind_eq_some_iff.mp h
  obtain ⟨s, -, h⟩ := Option.bind_eq_some_iff.mp h
  split at h
  · cases h
    exact List.length_set ..
  · cases h
    rfl

/-- `insert` reallocates only when the table would be more than half full. -/
theorem insert_length {value : Nat} (room : (m.size + 1) * 2 ≤ m.slots.length)
    (h : m.insert key value = some (found, m')) : m'.slots.length = m.slots.length := by
  rw [insert, insertNested_of_room 1 key value room] at h
  exact insertSlot_length h

/-- A table never shrinks. -/
theorem WF.insert_length_le {value : Nat} (hwf : m.WF)
    (h : m.insert key value = some (found, m')) : m.slots.length ≤ m'.slots.length := by
  by_cases room : (m.size + 1) * 2 ≤ m.slots.length
  · exact Nat.le_of_eq (insert_length room h).symm
  · obtain ⟨m₁, hgrow, -, hlen, -⟩ := hwf.grow_spec 0
    rw [insert, insertNested, if_pos (by omega), hgrow] at h
    have := insertSlot_length (m := m₁) h
    omega

end IdIndexMap

/-- Slots of the pool were only given back, and ids only erased. -/
structure Returned (pool : OrderPool) (ids : IdIndexMap) (pool' : OrderPool) (ids' : IdIndexMap) :
    Prop where
  size : pool'.nodes.length = pool.nodes.length
  nodesCapacity : pool'.nodesCapacity = pool.nodesCapacity
  free : pool.freeList.length ≤ pool'.freeList.length
  freeCapacity : pool'.freeList.length ≤ pool.freeCapacity →
    pool'.freeCapacity = pool.freeCapacity
  idSlots : ids'.slots.length = ids.slots.length

section returning

variable {pf : Platform} {pool pool' pool'' : OrderPool} {ids ids' ids'' : IdIndexMap}

theorem Returned.refl (pool : OrderPool) (ids : IdIndexMap) : Returned pool ids pool ids :=
  ⟨rfl, rfl, Nat.le_refl _, fun _ => rfl, rfl⟩

theorem Returned.trans (h : Returned pool ids pool' ids') (h' : Returned pool' ids' pool'' ids'') :
    Returned pool ids pool'' ids'' where
  size := h'.size.trans h.size
  nodesCapacity := h'.nodesCapacity.trans h.nodesCapacity
  free := Nat.le_trans h.free h'.free
  freeCapacity hle := by
    have hfirst := h.freeCapacity (Nat.le_trans h'.free hle)
    exact (h'.freeCapacity (hfirst ▸ hle)).trans hfirst
  idSlots := h'.idSlots.trans h.idSlots

theorem Returned.of_same (h : OrderPool.SameStorage pool pool') : Returned pool ids pool' ids :=
  ⟨h.size, h.nodesCapacity, Nat.le_of_eq (by rw [h.free]), fun _ => h.freeCapacity, rfl⟩

theorem Returned.of_erase {key : OrderId} {found : Bool}
    (h : ids.erase key = some (found, ids')) : Returned pool ids pool ids' :=
  ⟨rfl, rfl, Nat.le_refl _, fun _ => rfl, IdIndexMap.erase_length h⟩

theorem Returned.of_release {i : Nat} (h : pool.release pf i = some pool') :
    Returned pool ids pool' ids := by
  unfold OrderPool.release at h
  split at h
  · cases h
    refine ⟨rfl, rfl, Nat.le_succ _, fun hle => ?_, rfl⟩
    rw [List.length_cons] at hle
    show pf.pushBack pool.freeCapacity pool.freeList.length = pool.freeCapacity
    rw [Platform.pushBack, if_pos (Nat.lt_of_succ_le hle)]
  · cases h

end returning

section matching

variable {pf : Platform} {policy : SelfTradePrevention} {symbol : SymbolId} {price : Int}
  {now : Nat → Timestamp} {level level' : PriceLevel} {m m' : Matching} {killed : Bool} {i : Nat}

theorem dropMaker_returned {id : OrderId} (h : dropMaker pf level m i id = some (level', m')) :
    Returned m.pool m.idIndex m'.pool m'.idIndex := by
  obtain ⟨⟨level₁, pool₁⟩, hunlink, h⟩ := Option.bind_eq_some_iff.mp h
  obtain ⟨⟨found, ids₁⟩, herase, h⟩ := Option.bind_eq_some_iff.mp h
  obtain ⟨pool₂, hrelease, h⟩ := Option.bind_eq_some_iff.mp h
  cases h
  exact (Returned.of_same (levelUnlink_storage hunlink)).trans
    ((Returned.of_erase herase).trans (.of_release hrelease))

theorem drainStep_returned
    (h : drainStep pf policy symbol price now level m i = some (killed, level', m')) :
    Returned m.pool m.idIndex m'.pool m'.idIndex := by
  obtain ⟨node, -, h⟩ := Option.bind_eq_some_iff.mp h
  dsimp only at h
  split at h
  · split at h
    · obtain ⟨⟨level₁, m₁⟩, hdrop, h⟩ := Option.bind_eq_some_iff.mp h
      cases h
      exact dropMaker_returned hdrop
    · cases h
      exact .refl _ _
  · obtain ⟨⟨level₁, pool₁⟩, hreduce, h⟩ := Option.bind_eq_some_iff.mp h
    have hsame : Returned m.pool m.idIndex pool₁ m.idIndex :=
      .of_same (levelReduceQuantity_storage hreduce)
    dsimp only at h
    split at h
    · obtain ⟨⟨level₂, m₂⟩, hdrop, h⟩ := Option.bind_eq_some_iff.mp h
      cases h
      exact hsame.trans (dropMaker_returned hdrop)
    · cases h
      exact hsame

/-- The inner loop. -/
theorem drainLevel_returned : ∀ (fuel : Nat) {level level' : PriceLevel} {m m' : Matching}
    {killed : Bool},
    drainLevel pf policy symbol price now fuel level m = some (killed, level', m') →
      Returned m.pool m.idIndex m'.pool m'.idIndex := by
  intro fuel
  induction fuel with
  | zero => intro level level' m m' killed h; cases h
  | succ fuel ih =>
    intro level level' m m' killed h
    unfold drainLevel at h
    split at h
    · cases h
      exact .refl _ _
    · split at h
      · obtain ⟨⟨stop, level₁, m₁⟩, hstep, h⟩ := Option.bind_eq_some_iff.mp h
        have hfirst := drainStep_returned hstep
        dsimp only at h
        split at h
        · cases h
          exact hfirst
        · exact hfirst.trans (ih h)
      · cases h
        exact .refl _ _

variable {S : Type} [LevelStore S] {side : Side}

/-- The outer loop. -/
theorem matchLoop_returned : ∀ (fuel : Nat) {levels levels' : S} {m m' : Matching} {killed : Bool},
    matchLoop pf policy symbol side now fuel levels m = some (killed, levels', m') →
      Returned m.pool m.idIndex m'.pool m'.idIndex := by
  intro fuel
  induction fuel with
  | zero => intro levels levels' m m' killed h; cases h
  | succ fuel ih =>
    intro levels levels' m m' killed h
    unfold matchLoop at h
    split at h
    · obtain ⟨best, -, h⟩ := Option.bind_eq_some_iff.mp h
      cases best with
      | none =>
        cases h
        exact .refl _ _
      | some best =>
        obtain ⟨levelPrice, level⟩ := best
        dsimp only at h
        split at h
        · cases h
          exact .refl _ _
        · obtain ⟨⟨stop, level₁, m₁⟩, hdrain, h⟩ := Option.bind_eq_some_iff.mp h
          obtain ⟨levels₁, -, h⟩ := Option.bind_eq_some_iff.mp h
          have hfirst := drainLevel_returned _ hdrain
          dsimp only at h
          split at h
          · cases h
            exact hfirst
          · exact hfirst.trans (ih h)
    · cases h
      exact .refl _ _

variable {b b' : OrderBook S} {order left : Order} {trades : List Trade}

theorem OrderBook.matchStep_returned
    (h : b.matchStep pf order now = some (killed, left, trades, b')) :
    Returned b.pool b.idIndex b'.pool b'.idIndex := by
  unfold OrderBook.matchStep at h
  split at h
  · obtain ⟨⟨killed₁, levels, m⟩, hloop, h⟩ := Option.bind_eq_some_iff.mp h
    cases h
    exact matchLoop_returned _ hloop
  · cases h
    exact .refl _ _

theorem OrderBook.cancelAt_returned {id : OrderId} {found : Bool}
    (h : b.cancelAt pf id i = some (found, b')) :
    Returned b.pool b.idIndex b'.pool b'.idIndex := by
  obtain ⟨node, -, h⟩ := Option.bind_eq_some_iff.mp h
  obtain ⟨level, -, h⟩ := Option.bind_eq_some_iff.mp h
  cases level with
  | none =>
    cases h
    exact .refl _ _
  | some level =>
    obtain ⟨⟨level₁, pool₁⟩, hunlink, h⟩ := Option.bind_eq_some_iff.mp h
    obtain ⟨levels, -, h⟩ := Option.bind_eq_some_iff.mp h
    obtain ⟨pool₂, hrelease, h⟩ := Option.bind_eq_some_iff.mp h
    obtain ⟨⟨found₁, ids₁⟩, herase, h⟩ := Option.bind_eq_some_iff.mp h
    cases h
    exact (Returned.of_same (levelUnlink_storage hunlink)).trans
      ((Returned.of_release hrelease).trans (.of_erase herase))

theorem OrderBook.cancelOrder_returned {id : OrderId} {found : Bool}
    (h : b.cancelOrder pf id = some (found, b')) :
    Returned b.pool b.idIndex b'.pool b'.idIndex := by
  obtain ⟨idx, -, h⟩ := Option.bind_eq_some_iff.mp h
  cases idx with
  | none =>
    cases h
    exact .refl _ _
  | some idx => exact OrderBook.cancelAt_returned h

end matching

/-! ## Section 2: One call -/

/-- The vectors of the pool have room for its slots. -/
structure OrderBook.Provisioned {S : Type} (b : OrderBook S) : Prop where
  nodes : b.pool.nodes.length ≤ b.pool.nodesCapacity
  free : b.pool.nodesCapacity ≤ b.pool.freeCapacity

/-- Nothing was reallocated. -/
structure SameCapacity {S : Type} (b b' : OrderBook S) : Prop where
  nodes : b'.pool.nodesCapacity = b.pool.nodesCapacity
  free : b'.pool.freeCapacity = b.pool.freeCapacity
  idSlots : b'.idIndex.slots.length = b.idIndex.slots.length

/-- Room for `n` orders. -/
structure OrderBook.RoomFor {S : Type} (b : OrderBook S) (n : Nat) : Prop where
  nodes : n ≤ b.pool.nodesCapacity
  idSlots : n * 2 ≤ b.idIndex.slots.length

theorem OrderBook.Provisioned.of_same {S : Type} {b b' : OrderBook S} (hp : b.Provisioned)
    (hsame : SameCapacity b b') (hsize : b'.pool.nodes.length ≤ b.pool.nodesCapacity) :
    b'.Provisioned :=
  ⟨by rw [hsame.nodes]; exact hsize, by rw [hsame.nodes, hsame.free]; exact hp.free⟩

theorem OrderBook.RoomFor.of_same {S : Type} {b b' : OrderBook S} {n : Nat} (hn : b.RoomFor n)
    (hsame : SameCapacity b b') : b'.RoomFor n :=
  ⟨by rw [hsame.nodes]; exact hn.nodes, by rw [hsame.idSlots]; exact hn.idSlots⟩

/-- What taking a slot does to the capacities of the pool: nothing, if it is a
    slot given back before or there is room for one more. -/
theorem OrderBook.Provisioned.acquire {S : Type} {pf : Platform} {b : OrderBook S} {order : Order}
    {i : Nat} {pool : OrderPool} (hp : b.Provisioned)
    (hacq : b.pool.acquire pf order = some (i, pool)) :
    pool.nodes.length ≤ pool.nodesCapacity ∧ pool.nodesCapacity ≤ pool.freeCapacity ∧
      b.pool.nodesCapacity ≤ pool.nodesCapacity ∧
      (pool.nodes.length ≤ b.pool.nodesCapacity →
        pool.nodesCapacity = b.pool.nodesCapacity ∧ pool.freeCapacity = b.pool.freeCapacity) := by
  have hnodes := hp.nodes
  have hfree := hp.free
  rcases OrderPool.acquire_cases hacq with ⟨-, hlen, hn, hf⟩ | ⟨-, -, -, hlen, hn, hf⟩
  · rw [hlen, hn, hf]
    exact ⟨hnodes, hfree, Nat.le_refl _, fun _ => ⟨rfl, rfl⟩⟩
  · have hroom := pf.lt_pushBack hnodes
    have hreserve := pf.le_reserve b.pool.freeCapacity pool.nodesCapacity
    refine ⟨by omega, by omega, ?_, fun hle => ?_⟩
    · rw [hn, Platform.pushBack]
      split
      · exact Nat.le_refl _
      · exact Nat.le_of_lt (pf.lt_grow _)
    · have hsame : pool.nodesCapacity = b.pool.nodesCapacity := by
        rw [hn, Platform.pushBack, if_pos (by omega)]
      refine ⟨hsame, ?_⟩
      rw [hf, hsame, Platform.reserve, if_pos hfree]

section calls

variable {S : Type} [LevelStore S] [LawfulLevelStore S] {pf : Platform} {b b' b₁ : OrderBook S}
  {order : Order} {now : Clock}

/-- Resting an order takes a slot and indexes it. -/
theorem OrderBook.restOrder_takes [LocalUpsert S] (h : b.restOrder pf order = some b') :
    ∃ i pool fresh, b.pool.acquire pf order = some (i, pool) ∧
      OrderPool.SameStorage pool b'.pool ∧
      b.idIndex.insert order.id i = some (fresh, b'.idIndex) := by
  obtain ⟨⟨i, pool⟩, hacq, h⟩ := Option.bind_eq_some_iff.mp h
  obtain ⟨⟨levels, pool'⟩, hup, h⟩ := Option.bind_eq_some_iff.mp h
  obtain ⟨⟨fresh, ids⟩, hins, h⟩ := Option.bind_eq_some_iff.mp h
  cases h
  obtain ⟨l, l', hpush⟩ := LocalUpsert.upsert_pool hup
  exact ⟨i, pool, fresh, hacq, levelPushBack_storage hpush, hins⟩

/-- What a call does to the storage, short of a reset: a slot is taken last, if
    at all. -/
inductive StorageEffect (pf : Platform) (b b' : OrderBook S) : Prop where
  | returned (h : Returned b.pool b.idIndex b'.pool b'.idIndex)
  | rested (b₁ : OrderBook S) (order : Order) (hvalid : b₁.Valid pf True)
      (h : Returned b.pool b.idIndex b₁.pool b₁.idIndex) (hrest : b₁.restOrder pf order = some b')

theorem StorageEffect.after (h : Returned b.pool b.idIndex b₁.pool b₁.idIndex)
    (heffect : StorageEffect pf b₁ b') : StorageEffect pf b b' := by
  cases heffect with
  | returned h' => exact .returned (h.trans h')
  | rested b₂ order hvalid h' hrest => exact .rested b₂ order hvalid (h.trans h') hrest

theorem OrderBook.Valid.addOrder_storage (h : b.Valid pf True) {out : Outcome S}
    (hrun : b.addOrder pf order now = some out) : StorageEffect pf b out.book := by
  obtain ⟨qs, h⟩ := h
  obtain ⟨reason, -, hrun⟩ := Option.bind_eq_some_iff.mp hrun
  cases reason with
  | some reason =>
    cases hrun
    exact .returned (.refl _ _)
  | none =>
    obtain ⟨killed, -, hrun⟩ := Option.bind_eq_some_iff.mp hrun
    cases killed with
    | true =>
      cases hrun
      exact .returned (.refl _ _)
    | false =>
      obtain ⟨⟨stpKilled, left, trades, b₁⟩, hmatch, hrun⟩ := Option.bind_eq_some_iff.mp hrun
      have hback := OrderBook.matchStep_returned hmatch
      -- matching leaves a valid book
      obtain ⟨b₂, qs₂, hmatch₂, hrep₂, -⟩ := h.matchStep_spec order.opened now
      rw [hmatch] at hmatch₂
      cases hmatch₂
      unfold OrderBook.conclude at hrun
      dsimp only at hrun
      split at hrun
      · cases hrun
        exact .returned hback
      · split at hrun
        · obtain ⟨b₂, hrest, hrun⟩ := Option.bind_eq_some_iff.mp hrun
          cases hrun
          exact .rested b₁ _ ⟨_, hrep₂⟩ hback hrest
        · cases hrun
          exact .returned hback

theorem OrderBook.Valid.amendOrder_storage (h : b.Valid pf True) {id : OrderId}
    {newQuantity : Int} {newPrice : Option Int} {out : Outcome S}
    (hrun : b.amendOrder pf id newQuantity newPrice now = some out) :
    StorageEffect pf b out.book := by
  obtain ⟨qs, h⟩ := h
  obtain ⟨idx, hfind, hrun⟩ := Option.bind_eq_some_iff.mp hrun
  cases idx with
  | none =>
    cases hrun
    exact .returned (.refl _ _)
  | some idx =>
    dsimp only at hrun
    split at hrun
    · cases hrun
      exact .returned (.refl _ _)
    split at hrun
    · cases hrun
      exact .returned (.refl _ _)
    obtain ⟨node, -, hrun⟩ := Option.bind_eq_some_iff.mp hrun
    split at hrun
    · -- in place: no slot changes hands
      obtain ⟨level, -, hrun⟩ := Option.bind_eq_some_iff.mp hrun
      obtain ⟨⟨level', pool⟩, hreduce, hrun⟩ := Option.bind_eq_some_iff.mp hrun
      obtain ⟨levels, -, hrun⟩ := Option.bind_eq_some_iff.mp hrun
      cases hrun
      have hids : (b.setLevels node.order.side levels).idIndex = b.idIndex := by
        cases node.order.side <;> rfl
      refine .returned ?_
      show Returned b.pool b.idIndex pool (b.setLevels node.order.side levels).idIndex
      rw [hids]
      exact .of_same (levelReduceQuantity_storage hreduce)
    · -- cancelled and added again
      obtain ⟨⟨found, b₁⟩, hcancel, hrun⟩ := Option.bind_eq_some_iff.mp hrun
      obtain ⟨b₂, qs₂, hcancel₂, hrep₂, -⟩ := h.cancelOrder_spec id
      have hback := OrderBook.cancelOrder_returned hcancel
      rw [hcancel] at hcancel₂
      cases hcancel₂
      exact .after hback (OrderBook.Valid.addOrder_storage ⟨qs₂, hrep₂⟩ hrun)

/-- A call clears the storage or takes one slot at most. -/
theorem OrderBook.Valid.call_storage (h : b.Valid pf True) {c : Call} {reply : Reply}
    (hrun : b.call pf (c, now) = some (reply, b')) :
    (c = .reset ∧ b'.pool = b.pool.reset ∧ b'.idIndex = b.idIndex.clear) ∨
      StorageEffect pf b b' := by
  cases c with
  | add order =>
    obtain ⟨out, hadd, hrun⟩ := Option.bind_eq_some_iff.mp hrun
    cases hrun
    exact .inr (h.addOrder_storage hadd)
  | cancel id =>
    obtain ⟨⟨found, b₁⟩, hcancel, hrun⟩ := Option.bind_eq_some_iff.mp hrun
    cases hrun
    exact .inr (.returned (OrderBook.cancelOrder_returned hcancel))
  | amend id newQuantity newPrice =>
    obtain ⟨out, hamend, hrun⟩ := Option.bind_eq_some_iff.mp hrun
    cases hrun
    exact .inr (h.amendOrder_storage hamend)
  | reset =>
    obtain ⟨b₁, hreset, hrun⟩ := Option.bind_eq_some_iff.mp hrun
    obtain ⟨bids, -, hreset⟩ := Option.bind_eq_some_iff.mp hreset
    obtain ⟨asks, -, hreset⟩ := Option.bind_eq_some_iff.mp hreset
    cases hreset
    cases hrun
    exact .inl ⟨rfl, rfl, rfl⟩

/-- The slots in use are the orders the index counts. -/
theorem OrderBook.Valid.live_count (h : b.Valid pf True) :
    b.orderCount + b.pool.freeList.length = b.pool.nodes.length := by
  obtain ⟨qs, h⟩ := h
  obtain ⟨-, hcount, -⟩ := h.store.counted trivial
  have hpart := h.store.part.length_eq
  rw [List.length_append, List.length_range] at hpart
  rw [OrderBook.orderCount, hcount, hpart]

theorem OrderBook.Valid.index_wf (h : b.Valid pf True) : b.idIndex.WF := by
  obtain ⟨qs, h⟩ := h
  exact h.store.wf

/-- **One call's slots**: short of a reset, the pool is as large as before or
    as the orders now resting. -/
theorem StorageEffect.size_eq [LocalUpsert S] (heffect : StorageEffect pf b b')
    (h' : b'.Valid pf True) :
    b'.pool.nodes.length = max b.pool.nodes.length b'.orderCount := by
  have hcount' := h'.live_count
  cases heffect with
  | returned hback =>
    have := hback.size
    omega
  | rested b₁ order hvalid hback hrest =>
    obtain ⟨i, pool, fresh, hacq, hsame, -⟩ := OrderBook.restOrder_takes hrest
    have hsize := hback.size
    have hsize' := hsame.size
    rcases OrderPool.acquire_cases hacq with ⟨-, hlen, -⟩ | ⟨-, hfree, -, hlen, -⟩
    · omega
    · -- a new slot: nothing is free
      rw [hsame.free, hfree, List.length_nil] at hcount'
      omega

/-- Giving slots back leaves every capacity as it was. -/
theorem OrderBook.Provisioned.sameCapacity (hp : b.Provisioned) (h' : b'.Valid pf True)
    (hback : Returned b.pool b.idIndex b'.pool b'.idIndex) : SameCapacity b b' := by
  have hcount' := h'.live_count
  have hsize := hback.size
  have hnodes := hp.nodes
  have hfree := hp.free
  exact ⟨hback.nodesCapacity, hback.freeCapacity (by omega), hback.idSlots⟩

/-- **One call's capacities**: they stay while there is room for the orders now
    resting, and otherwise grow. -/
theorem StorageEffect.capacity [LocalUpsert S] (heffect : StorageEffect pf b b')
    (h' : b'.Valid pf True) (hp : b.Provisioned) :
    b'.Provisioned ∧ (∀ n, b.RoomFor n → b'.RoomFor n) ∧
      (b.RoomFor b'.orderCount → SameCapacity b b') := by
  have hmax := heffect.size_eq h'
  cases heffect with
  | returned hback =>
    have hsame := hp.sameCapacity h' hback
    exact ⟨hp.of_same hsame (hback.size ▸ hp.nodes), fun n hn => hn.of_same hsame, fun _ => hsame⟩
  | rested b₁ order hvalid hback hrest =>
    have hsame₁ := hp.sameCapacity hvalid hback
    have hp₁ := hp.of_same hsame₁ (hback.size ▸ hp.nodes)
    obtain ⟨i, pool, fresh, hacq, hsame, hins⟩ := OrderBook.restOrder_takes hrest
    obtain ⟨hsize', hcaps', hgrow, hkeep⟩ := hp₁.acquire hacq
    rw [← hsame.size, ← hsame.nodesCapacity] at hsize'
    rw [← hsame.nodesCapacity, ← hsame.freeCapacity] at hcaps'
    rw [← hsame.nodesCapacity] at hgrow
    rw [← hsame.size, ← hsame.nodesCapacity, ← hsame.freeCapacity] at hkeep
    have hids := hvalid.index_wf.insert_length_le hins
    refine ⟨⟨hsize', hcaps'⟩, fun n hn => ?_, fun hroom => ?_⟩
    · have hn₁ := hn.of_same hsame₁
      exact ⟨Nat.le_trans hn₁.nodes hgrow, Nat.le_trans hn₁.idSlots hids⟩
    · -- one more order rests than before
      have hnext : b'.orderCount = b₁.orderCount + 1 := by
        have hcount := hvalid.live_count
        have hcount' := h'.live_count
        rw [hsame.size, hsame.free] at hcount'
        rcases OrderPool.acquire_cases hacq with ⟨hfree, hlen, -⟩ | ⟨hfree, hfree', -, hlen, -⟩
        · rw [hfree, List.length_cons] at hcount
          omega
        · rw [hfree, List.length_nil] at hcount
          rw [hfree', List.length_nil] at hcount'
          omega
      have hroom₁ := hroom.of_same hsame₁
      have hload := hroom₁.idSlots
      rw [hnext] at hload
      have hids' := IdIndexMap.insert_length hload hins
      obtain ⟨hn, hf⟩ := hkeep (by
        have hnodes := hp.nodes
        have hmost := hroom.nodes
        have hcapacity := hsame₁.nodes
        omega)
      exact ⟨hn.trans hsame₁.nodes, hf.trans hsame₁.free, hids'.trans hsame₁.idSlots⟩

/-- A reset keeps every capacity. -/
theorem OrderBook.Provisioned.of_reset {S : Type} {b b' : OrderBook S} (hp : b.Provisioned)
    (hpool : b'.pool = b.pool.reset) (hids : b'.idIndex = b.idIndex.clear) :
    b'.Provisioned ∧ SameCapacity b b' := by
  have hsame : SameCapacity b b' :=
    ⟨by rw [hpool]; rfl, by rw [hpool]; rfl, by rw [hids]; exact List.length_replicate ..⟩
  refine ⟨hp.of_same hsame ?_, hsame⟩
  rw [hpool]
  exact Nat.zero_le _

theorem OrderBook.Valid.call_capacity [LocalUpsert S] (h : b.Valid pf True) (hp : b.Provisioned)
    {c : Call} (hz : c.NonZero) {reply : Reply} (hrun : b.call pf (c, now) = some (reply, b')) :
    b'.Provisioned ∧ (∀ n, b.RoomFor n → b'.RoomFor n) ∧
      (b.RoomFor b'.orderCount → SameCapacity b b') := by
  have h' := (h.call_eq (fun _ => hz) hrun).1
  rcases h.call_storage hrun with ⟨-, hpool, hids⟩ | heffect
  · obtain ⟨hp', hsame⟩ := hp.of_reset hpool hids
    exact ⟨hp', fun n hn => hn.of_same hsame, fun _ => hsame⟩
  · exact heffect.capacity h' hp

end calls

/-! ## Section 3: The slots of the pool -/

section highWater

variable {pf : Platform} {k : Approach} {symbol : SymbolId} {minPrice maxPrice : Int} {hint : Nat}
  {stpPolicy : SelfTradePrevention} {b₀ b : k.Book}

/-- What a constructor leaves the storage at. -/
theorem Approach.create_storage
    (h : k.create pf symbol minPrice maxPrice hint stpPolicy = some b) :
    b.pool = OrderPool.create pf hint ∧ IdIndexMap.create hint = some b.idIndex := by
  cases k with
  | map | vector =>
    obtain ⟨ids, hids, hb⟩ := Option.bind_eq_some_iff.mp h
    cases hb
    exact ⟨rfl, hids⟩
  | array =>
    obtain ⟨range, -, h⟩ := Option.bind_eq_some_iff.mp h
    obtain ⟨ids, hids, hb⟩ := Option.bind_eq_some_iff.mp h
    cases hb
    exact ⟨rfl, hids⟩

/-- After the constructor or a reset the pool has no slots. -/
theorem Approach.session_starts {before : List (Call × Clock)} {replies : List Reply}
    (h : k.session pf symbol minPrice maxPrice hint stpPolicy before = some (replies, b))
    (hids : ∀ a ∈ before, a.1.NonZero) (hstart : ∀ a ∈ before.getLast?, a.1 = .reset) :
    b.pool.nodes.length = 0 := by
  obtain ⟨b₀, hb₀, hrun⟩ := Approach.session_eq_some.mp h
  have hend := Runs.exec_traced
    (P := fun as _ (b : k.Book) => (∀ a ∈ as, a.1.NonZero) → b.Valid pf True ∧
      ((∀ a ∈ as.getLast?, a.1 = .reset) → b.pool.nodes.length = 0))
    (fun as ws b a reply b' hP hstep hz => by
      obtain ⟨hvalid, -⟩ := hP fun x hx => hz x (by simp [hx])
      obtain ⟨c, now⟩ := a
      refine ⟨(hvalid.call_eq (fun _ => hz (c, now) (by simp)) hstep).1, fun hlast => ?_⟩
      obtain rfl : c = .reset := hlast (c, now) (by simp)
      obtain ⟨b₁, hreset, hstep⟩ := Option.bind_eq_some_iff.mp hstep
      obtain ⟨bids, -, hreset⟩ := Option.bind_eq_some_iff.mp hreset
      obtain ⟨asks, -, hreset⟩ := Option.bind_eq_some_iff.mp hreset
      cases hreset
      cases hstep
      rfl)
    before [] [] b₀ (fun _ => ⟨(Approach.create_spec True hb₀).1, fun _ => by
      rw [(Approach.create_storage hb₀).1]
      rfl⟩) hrun
  exact (hend hids).2 hstart

/-- The numbers of orders that rested after some of the calls. -/
def countsAlong (pf : Platform) (b₀ : k.Book) (calls : List (Call × Clock)) : Set Nat :=
  {n | ∃ done replies b, done <+: calls ∧
    Runs.exec (OrderBook.call pf) b₀ done = some (replies, b) ∧ b.orderCount = n}

theorem countsAlong_nil : countsAlong pf b₀ [] = {b₀.orderCount} := by
  ext n
  rw [Set.mem_singleton_iff]
  constructor
  · rintro ⟨done, replies, b, hdone, hrun, rfl⟩
    obtain rfl := List.prefix_nil.mp hdone
    cases hrun
    rfl
  · rintro rfl
    exact ⟨[], [], b₀, List.prefix_rfl, rfl, rfl⟩

/-- The high-water mark after one more call. -/
theorem isGreatest_countsAlong_concat {calls : List (Call × Clock)} {a : Call × Clock}
    {replies : List Reply} {m : Nat} (h : IsGreatest (countsAlong pf b₀ calls) m)
    (hrun : Runs.exec (OrderBook.call pf) b₀ (calls ++ [a]) = some (replies, b)) :
    IsGreatest (countsAlong pf b₀ (calls ++ [a])) (max m b.orderCount) := by
  obtain ⟨⟨done, replies₁, b₁, hdone, hrun₁, hcount⟩, hbound⟩ := h
  constructor
  · -- the mark is the old one, or reached just now
    rcases Nat.le_total b.orderCount m with hle | hle
    · rw [Nat.max_eq_left hle]
      exact ⟨done, replies₁, b₁, hdone.trans (List.prefix_append ..), hrun₁, hcount⟩
    · rw [Nat.max_eq_right hle]
      exact ⟨calls ++ [a], replies, b, List.prefix_rfl, hrun, rfl⟩
  · rintro n ⟨done', replies', b₂, hdone', hrun₂, rfl⟩
    rcases List.prefix_concat_iff.mp hdone' with rfl | hdone'
    · rw [hrun] at hrun₂
      cases hrun₂
      exact Nat.le_max_right ..
    · exact Nat.le_trans (hbound ⟨done', replies', b₂, hdone', hrun₂, rfl⟩) (Nat.le_max_left ..)

/-- A run in which the slots of the pool are as many as the high-water mark. -/
structure AtMark (pf : Platform) (b₀ : k.Book) (calls : List (Call × Clock))
    (replies : List Reply) (b : k.Book) : Prop where
  valid : b.Valid pf True
  run : Runs.exec (OrderBook.call pf) b₀ calls = some (replies, b)
  mark : IsGreatest (countsAlong pf b₀ calls) b.pool.nodes.length

theorem AtMark.call {calls : List (Call × Clock)} {replies : List Reply}
    (h : AtMark pf b₀ calls replies b) {a : Call × Clock} (hz : a.1.NonZero) (hreset : a.1 ≠ .reset)
    {reply : Reply} {b' : k.Book} (hcall : b.call pf a = some (reply, b')) :
    AtMark pf b₀ (calls ++ [a]) (replies ++ [reply]) b' := by
  have hvalid' := (h.valid.call_eq (fun _ => hz) hcall).1
  have hone : Runs.exec (OrderBook.call pf) b [a] = some ([reply], b') :=
    Runs.exec_cons_eq_some.mpr ⟨reply, b', [], hcall, rfl, rfl⟩
  have hrun := Runs.exec_append h.run hone
  refine ⟨hvalid', hrun, ?_⟩
  rcases h.valid.call_storage hcall with ⟨hc, -⟩ | heffect
  · exact absurd hc hreset
  · rw [heffect.size_eq hvalid']
    exact isGreatest_countsAlong_concat h.mark hrun

end highWater

/-- **The pool is as large as it ever had to be.**  In every run since the
    constructor or a reset, the slots of the pool are as many as the most orders
    that rested after any of the calls: a slot is added only when the count
    passes its highest value so far.  This is said of the source while fewer
    than `2 ^ 32 - 1` orders rest. -/
theorem pool_size_is_high_water_mark (pf : Platform) (k : Approach) (symbol : SymbolId)
    (minPrice maxPrice : Int) (hint : Nat) (stpPolicy : SelfTradePrevention)
    (before calls : List (Call × Clock)) (replies₀ replies : List Reply) (b₀ b : k.Book)
    (hbefore : k.session pf symbol minPrice maxPrice hint stpPolicy before = some (replies₀, b₀))
    (hstart : ∀ a ∈ before.getLast?, a.1 = .reset)
    (hrun : Runs.exec (OrderBook.call pf) b₀ calls = some (replies, b))
    (hids : ∀ a ∈ before ++ calls, a.1.NonZero) (hcalls : ∀ a ∈ calls, a.1 ≠ .reset) :
    IsGreatest (countsAlong pf b₀ calls) b.pool.nodes.length := by
  have hids₀ : ∀ a ∈ before, a.1.NonZero := fun a ha => hids a (List.mem_append_left _ ha)
  have hreachable : k.Reachable pf Call.NonZero b₀ := Approach.reachable_of_session hids₀ hbefore
  have hvalid : b₀.Valid pf True := hreachable.valid fun _ hc _ => hc
  have hempty := Approach.session_starts hbefore hids₀ hstart
  have hmark : AtMark pf b₀ [] [] b₀ := by
    refine ⟨hvalid, rfl, ?_⟩
    have hcount := hvalid.live_count
    rw [countsAlong_nil, show b₀.pool.nodes.length = b₀.orderCount by omega]
    exact isGreatest_singleton
  have hstep : ∀ (as : List (Call × Clock)) (ws : List Reply) (b : k.Book) (a : Call × Clock)
      (reply : Reply) (b' : k.Book),
      ((∀ x ∈ as, x.1.NonZero ∧ x.1 ≠ .reset) → AtMark pf b₀ as ws b) →
      b.call pf a = some (reply, b') →
      (∀ x ∈ as ++ [a], x.1.NonZero ∧ x.1 ≠ .reset) →
      AtMark pf b₀ (as ++ [a]) (ws ++ [reply]) b' := by
    intro as ws b a reply b' h hcall hok
    obtain ⟨hz, hreset⟩ := hok a (by simp)
    exact (h fun x hx => hok x (by simp [hx])).call hz hreset hcall
  have hend := Runs.exec_traced hstep calls [] [] b₀ (fun _ => hmark) hrun
  exact (hend fun a ha => ⟨hids a (List.mem_append_right _ ha), hcalls a ha⟩).mark

/-- Three orders rest at once, then one; after the reset two do. -/
theorem pool_size_is_high_water_mark_after_reset :
    ∃ replies₀ replies b₀ b, Approach.vector.session .int64 1 90 110 0 .none
        [(.add ⟨1, 100, 5, 0, 0, 1, 7, .sell, .limit, .gtc⟩, fun _ => 0),
         (.add ⟨2, 101, 5, 0, 0, 1, 7, .sell, .limit, .gtc⟩, fun _ => 0),
         (.add ⟨3, 102, 5, 0, 0, 1, 7, .sell, .limit, .gtc⟩, fun _ => 0),
         (.reset, fun _ => 0)] = some (replies₀, b₀) ∧
      Runs.exec (OrderBook.call .int64) b₀
        [(.add ⟨4, 100, 5, 0, 0, 1, 7, .sell, .limit, .gtc⟩, fun _ => 0),
         (.add ⟨5, 101, 5, 0, 0, 1, 7, .sell, .limit, .gtc⟩, fun _ => 0),
         (.add ⟨6, 0, 8, 0, 0, 1, 8, .buy, .market, .ioc⟩, fun _ => 0),
         (.add ⟨7, 99, 5, 0, 0, 1, 7, .buy, .limit, .gtc⟩, fun _ => 0)] = some (replies, b) ∧
      b.pool.nodes.length = 2 ∧
      IsGreatest (countsAlong .int64 b₀
        [(.add ⟨4, 100, 5, 0, 0, 1, 7, .sell, .limit, .gtc⟩, fun _ => 0),
         (.add ⟨5, 101, 5, 0, 0, 1, 7, .sell, .limit, .gtc⟩, fun _ => 0),
         (.add ⟨6, 0, 8, 0, 0, 1, 8, .buy, .market, .ioc⟩, fun _ => 0),
         (.add ⟨7, 99, 5, 0, 0, 1, 7, .buy, .limit, .gtc⟩, fun _ => 0)]) 2 := by
  let before : List (Call × Clock) :=
    [(.add ⟨1, 100, 5, 0, 0, 1, 7, .sell, .limit, .gtc⟩, fun _ => 0),
     (.add ⟨2, 101, 5, 0, 0, 1, 7, .sell, .limit, .gtc⟩, fun _ => 0),
     (.add ⟨3, 102, 5, 0, 0, 1, 7, .sell, .limit, .gtc⟩, fun _ => 0),
     (.reset, fun _ => 0)]
  let calls : List (Call × Clock) :=
    [(.add ⟨4, 100, 5, 0, 0, 1, 7, .sell, .limit, .gtc⟩, fun _ => 0),
     (.add ⟨5, 101, 5, 0, 0, 1, 7, .sell, .limit, .gtc⟩, fun _ => 0),
     (.add ⟨6, 0, 8, 0, 0, 1, 8, .buy, .market, .ioc⟩, fun _ => 0),
     (.add ⟨7, 99, 5, 0, 0, 1, 7, .buy, .limit, .gtc⟩, fun _ => 0)]
  obtain ⟨replies₀, b₀, hbefore, hrest⟩ := Approach.session_ends (k := .vector)
    (P := fun b : Approach.vector.Book =>
      ((Runs.exec (OrderBook.call .int64) b calls).any fun x => x.2.pool.nodes.length = 2) = true)
    (show ((Approach.vector.session .int64 1 90 110 0 .none before).any _) = true by decide +kernel)
  cases hrun : Runs.exec (OrderBook.call .int64) b₀ calls with
  | none =>
    rw [hrun] at hrest
    cases hrest
  | some x =>
    obtain ⟨replies, b⟩ := x
    rw [hrun] at hrest
    have hsize : b.pool.nodes.length = 2 := by simpa using hrest
    have hmark := pool_size_is_high_water_mark .int64 .vector 1 90 110 0 .none before calls
      replies₀ replies b₀ b hbefore (by simp [before]) hrun (by decide) (by decide)
    rw [hsize] at hmark
    exact ⟨replies₀, replies, b₀, b, hbefore, hrun, hsize, hmark⟩

/-! ## Section 4: No reallocation -/

/-- Everything a book allocates that outlives a call, as capacities: the two
    vectors of the pool, the table of the id index and, for ladders that are
    one array, that array and its bitmap. -/
structure Footprint where
  nodes : Nat
  freeList : Nat
  idSlots : Nat
  ladders : List Nat
  deriving DecidableEq, Repr

/-- A ladder over one band has one size. -/
theorem ArrayLevels.WF.size_eq {side : Side} {a a' : ArrayLevels} (h : ArrayLevels.WF side a)
    (h' : ArrayLevels.WF side a') (hrange : inRange a' = inRange a) :
    [a'.levels.length, a'.bitmap.words.length] = [a.levels.length, a.bitmap.words.length] := by
  have hprices : ∀ p, (a'.minPrice ≤ p ∧ p ≤ a'.maxPrice) ↔ (a.minPrice ≤ p ∧ p ≤ a.maxPrice) := by
    intro p
    have hp := congrFun hrange p
    simpa only [inRange, decide_eq_decide] using hp
  have hlow := hprices a.minPrice
  have hlow' := hprices a'.minPrice
  have hhigh := hprices a.maxPrice
  have hhigh' := hprices a'.maxPrice
  have hband := h.band
  have hband' := h'.band
  have hlength : a'.levels.length = a.levels.length := by
    rw [h.length, h'.length]
    omega
  rw [h.bitmap.length, h'.bitmap.length, h.numBits, h'.numBits, hlength]

namespace Approach

/-- The levels of a map or a sorted vector come and go with their orders. -/
def ladderSize : (k : Approach) → k.Levels → List Nat
  | .map, _ => []
  | .vector, _ => []
  | .array, (a : ArrayLevels) => [a.levels.length, a.bitmap.words.length]

def footprint (k : Approach) (b : k.Book) : Footprint where
  nodes := b.pool.nodesCapacity
  freeList := b.pool.freeCapacity
  idSlots := b.idIndex.slots.length
  ladders := k.ladderSize b.bids ++ k.ladderSize b.asks

section capacities

variable {pf : Platform} {k : Approach} {symbol : SymbolId} {minPrice maxPrice : Int} {hint : Nat}
  {stpPolicy : SelfTradePrevention} {b b' b₀ : k.Book}

theorem ladderSize_eq {side : Side} {s s' : k.Levels} (h : LawfulLevelStore.WF side s)
    (h' : LawfulLevelStore.WF side s') (hrange : inRange s' = inRange s) :
    k.ladderSize s' = k.ladderSize s := by
  cases k with
  | map | vector => rfl
  | array =>
    have hwf : ArrayLevels.WF side s := h
    have hwf' : ArrayLevels.WF side s' := h'
    exact hwf.size_eq hwf' hrange

theorem footprint_eq (h : b.Valid pf True) (h' : b'.Valid pf True)
    (hrange : b'.reference.inRange = b.reference.inRange) (hsame : SameCapacity b b') :
    k.footprint b' = k.footprint b := by
  obtain ⟨qs, h⟩ := h
  obtain ⟨qs', h'⟩ := h'
  have hside : ∀ side, k.ladderSize (b'.levels side) = k.ladderSize (b.levels side) := by
    intro side
    refine ladderSize_eq (h.sides side).wf (h'.sides side).wf ?_
    rw [h.range_at side, h'.range_at side]
    exact hrange
  unfold footprint
  rw [hsame.nodes, hsame.free, hsame.idSlots, show k.ladderSize b'.bids = _ from hside .buy,
    show k.ladderSize b'.asks = _ from hside .sell]
  rfl

/-- The sizing loop does not stop short of its target. -/
theorem le_of_capacityFor {target : Nat} : ∀ (fuel : Nat) {cap c : Nat},
    IdIndexMap.capacityFor target fuel cap = some c → target ≤ c := by
  intro fuel
  induction fuel with
  | zero => intro cap c h; cases h
  | succ fuel ih =>
    intro cap c h
    unfold IdIndexMap.capacityFor at h
    split at h
    · exact ih h
    · obtain rfl := Option.some.inj h
      omega

/-- A new book has room for as many orders as it was told to expect. -/
theorem create_roomFor (hhint : hint < 2 ^ 63)
    (h : k.create pf symbol minPrice maxPrice hint stpPolicy = some b) :
    b.Provisioned ∧ b.RoomFor hint := by
  obtain ⟨hpool, hids⟩ := create_storage h
  obtain ⟨cap, hcap, hids⟩ := Option.bind_eq_some_iff.mp hids
  have hle := le_of_capacityFor 64 hcap
  rw [Nat.mod_eq_of_lt (by omega)] at hle
  have hslots : b.idIndex.slots.length = cap := by
    rw [← Option.some.inj hids]
    exact List.length_replicate ..
  refine ⟨⟨?_, ?_⟩, ?_, by omega⟩
  · rw [hpool]
    exact Nat.zero_le _
  · rw [hpool]
    exact Nat.le_refl _
  · rw [hpool]
    exact pf.le_reserve 0 hint

/-- A run from `b₀`, with its capacities. -/
structure Supplied (pf : Platform) (b₀ b : k.Book) : Prop where
  valid : b.Valid pf True
  provisioned : b.Provisioned
  room : ∀ n, b₀.RoomFor n → b.RoomFor n

theorem Supplied.call (h : Supplied pf b₀ b) {a : Call × Clock} (hz : a.1.NonZero) :
    ∃ reply b', b.call pf a = some (reply, b') ∧ Supplied pf b₀ b' ∧
      (b.RoomFor b'.orderCount → k.footprint b' = k.footprint b) := by
  obtain ⟨c, now⟩ := a
  obtain ⟨b', hrun, hvalid', href⟩ := h.valid.call_spec c now fun _ => hz
  obtain ⟨hprovisioned', hroom, hkeep⟩ := h.valid.call_capacity h.provisioned hz hrun
  refine ⟨_, b', hrun, ⟨hvalid', hprovisioned', fun n hn => hroom n (h.room n hn)⟩, fun hn => ?_⟩
  refine footprint_eq h.valid hvalid' ?_ (hkeep hn)
  rw [href, (RefBook.call_effect pf h.valid.sound c now).setup.range_eq]

/-- With room for `n` orders, a call after which no more rest allocates nothing. -/
theorem Supplied.call_steady {n : Nat} (hroom : b₀.RoomFor n) (h : Supplied pf b₀ b)
    {a : Call × Clock} (hz : a.1.NonZero) :
    ∃ reply b', b.call pf a = some (reply, b') ∧ Supplied pf b₀ b' ∧
      (b'.orderCount ≤ n → k.footprint b' = k.footprint b) := by
  obtain ⟨reply, b', hcall, h', hkeep⟩ := h.call hz
  have hroom' := h.room n hroom
  have hslots := hroom'.idSlots
  exact ⟨reply, b', hcall, h', fun hle => hkeep ⟨Nat.le_trans hle hroom'.nodes, by omega⟩⟩

theorem Supplied.run (h : Supplied pf b₀ b) {calls : List (Call × Clock)} {replies : List Reply}
    (hz : ∀ a ∈ calls, a.1.NonZero)
    (hrun : Runs.exec (OrderBook.call pf) b calls = some (replies, b')) : Supplied pf b₀ b' := by
  have hend := Runs.exec_traced
    (P := fun as _ (b : k.Book) => (∀ a ∈ as, a.1.NonZero) → Supplied pf b₀ b)
    (fun as ws b a reply b' hP hcall hok => by
      obtain ⟨reply₁, b₁, hcall₁, h₁, -⟩ := (hP fun x hx => hok x (by simp [hx])).call
        (hok a (by simp))
      rw [hcall] at hcall₁
      cases hcall₁
      exact h₁)
    calls [] [] b (fun _ => h) hrun
  exact hend hz

theorem roomFor_max {n m : Nat} (hn : b.RoomFor n) (hm : b.RoomFor m) : b.RoomFor (max n m) := by
  rcases Nat.le_total n m with hle | hle
  · rwa [Nat.max_eq_right hle]
  · rwa [Nat.max_eq_left hle]

/-- There is room for the orders that rest. -/
theorem Supplied.roomFor_count (h : Supplied pf b₀ b) : b.RoomFor b.orderCount := by
  have hcount := h.valid.live_count
  have hnodes := h.provisioned.nodes
  exact ⟨by omega, h.valid.index_wf.load⟩

end capacities

end Approach

/-- **The steady state never allocates.**  Let a book be filled up to some
    number of orders and go through any further calls.  From then on, as long as
    no more orders rest than at that point, or than the capacity hint if that is
    more, no call reallocates the pool or the id index, nor for `OrderBookArray`
    the ladders, which is then all the book owns.  This is said of the source
    while fewer than `2 ^ 32 - 1` orders rest. -/
theorem steady_state_never_allocates (pf : Platform) (k : Approach) (symbol : SymbolId)
    (minPrice maxPrice : Int) (hint : Nat) (stpPolicy : SelfTradePrevention)
    (fill more steady : List (Call × Clock)) (replies₁ replies₂ : List Reply) (b₁ b₂ : k.Book)
    (hhint : hint < 2 ^ 63)
    (hfill : k.session pf symbol minPrice maxPrice hint stpPolicy fill = some (replies₁, b₁))
    (hmore : Runs.exec (OrderBook.call pf) b₁ more = some (replies₂, b₂))
    (hids : ∀ a ∈ fill ++ more ++ steady, a.1.NonZero)
    (hcount : Runs.Along (OrderBook.call pf) (fun b _ => b.orderCount ≤ max hint b₁.orderCount)
      b₂ steady) :
    ∃ replies b, Runs.exec (OrderBook.call pf) b₂ steady = some (replies, b) ∧
      (b.orderCount ≤ max hint b₁.orderCount → k.footprint b = k.footprint b₂) := by
  obtain ⟨b₀, hb₀, hfill⟩ := Approach.session_eq_some.mp hfill
  obtain ⟨hprovisioned, hroom₀⟩ := Approach.create_roomFor hhint hb₀
  have h₀ : Approach.Supplied pf b₀ b₀ :=
    ⟨(Approach.create_spec True hb₀).1, hprovisioned, fun _ hn => hn⟩
  have h₁ := h₀.run (fun a ha => hids a (by simp [ha])) hfill
  -- the room there is at the end of the filling stays
  have hroom := Approach.roomFor_max (h₁.room hint hroom₀) h₁.roomFor_count
  have h₁' : Approach.Supplied pf b₁ b₁ := ⟨h₁.valid, h₁.provisioned, fun _ hn => hn⟩
  have h₂ := h₁'.run (fun a ha => hids a (by simp [ha])) hmore
  have hsteady : ∀ (_ : List ((Call × Clock) × Reply)) (b : k.Book) (a : Call × Clock),
      (Approach.Supplied pf b₁ b ∧
        (b.orderCount ≤ max hint b₁.orderCount → k.footprint b = k.footprint b₂)) →
      (a.1.NonZero ∧ b.orderCount ≤ max hint b₁.orderCount) →
      ∃ reply b', b.call pf a = some (reply, b') ∧ Approach.Supplied pf b₁ b' ∧
        (b'.orderCount ≤ max hint b₁.orderCount → k.footprint b' = k.footprint b₂) := by
    rintro _ b a ⟨hb, hfootprint⟩ ⟨hz, hle⟩
    obtain ⟨reply, b', hcall, hb', hkeep⟩ := hb.call_steady hroom hz
    exact ⟨reply, b', hcall, hb', fun hle' => (hkeep hle').trans (hfootprint hle)⟩
  obtain ⟨replies, b, hrun, -, hkeep⟩ := Runs.exec_along hsteady steady [] b₂ ⟨h₂, fun _ => rfl⟩
    (hcount.and_forall fun a ha => hids a (List.mem_append_right _ ha))
  exact ⟨replies, b, hrun, hkeep⟩

/-- A hint of one order, outgrown by the second; both are taken, and two others
    come back to the slots they left. -/
theorem steady_state_never_allocates_after_growth :
    ∃ replies₁ replies₂ replies b₁ b₂ b, Approach.array.session .int64 1 90 110 1 .none
        [(.add ⟨1, 100, 5, 0, 0, 1, 7, .sell, .limit, .gtc⟩, fun _ => 0),
         (.add ⟨2, 101, 5, 0, 0, 1, 7, .sell, .limit, .gtc⟩, fun _ => 0)] = some (replies₁, b₁) ∧
      Runs.exec (OrderBook.call .int64) b₁
        [(.add ⟨3, 0, 10, 0, 0, 1, 8, .buy, .market, .ioc⟩, fun _ => 0)] = some (replies₂, b₂) ∧
      Runs.exec (OrderBook.call .int64) b₂
        [(.add ⟨4, 99, 5, 0, 0, 1, 7, .buy, .limit, .gtc⟩, fun _ => 0),
         (.add ⟨5, 98, 5, 0, 0, 1, 7, .buy, .limit, .gtc⟩, fun _ => 0),
         (.amend 4 9 none, fun _ => 0)] = some (replies, b) ∧
      b.orderCount = 2 ∧ Approach.array.footprint b = Approach.array.footprint b₂ := by
  let fill : List (Call × Clock) :=
    [(.add ⟨1, 100, 5, 0, 0, 1, 7, .sell, .limit, .gtc⟩, fun _ => 0),
     (.add ⟨2, 101, 5, 0, 0, 1, 7, .sell, .limit, .gtc⟩, fun _ => 0)]
  let more : List (Call × Clock) :=
    [(.add ⟨3, 0, 10, 0, 0, 1, 8, .buy, .market, .ioc⟩, fun _ => 0)]
  let steady : List (Call × Clock) :=
    [(.add ⟨4, 99, 5, 0, 0, 1, 7, .buy, .limit, .gtc⟩, fun _ => 0),
     (.add ⟨5, 98, 5, 0, 0, 1, 7, .buy, .limit, .gtc⟩, fun _ => 0), (.amend 4 9 none, fun _ => 0)]
  obtain ⟨replies₁, b₁, hfill, hcount₁, hrest⟩ := Approach.session_ends (k := .array)
    (P := fun b : Approach.array.Book => b.orderCount = 2 ∧
      ((Runs.exec (OrderBook.call .int64) b more).any fun x =>
        Runs.Along (OrderBook.call .int64) (fun b _ => b.orderCount ≤ 2) x.2 steady ∧
          (Runs.exec (OrderBook.call .int64) x.2 steady).any fun y => y.2.orderCount = 2) = true)
    (show ((Approach.array.session .int64 1 90 110 1 .none fill).any _) = true by decide +kernel)
  cases hmore : Runs.exec (OrderBook.call .int64) b₁ more with
  | none =>
    rw [hmore] at hrest
    cases hrest
  | some x =>
    obtain ⟨replies₂, b₂⟩ := x
    rw [hmore] at hrest
    obtain ⟨halong, hend⟩ : Runs.Along (OrderBook.call .int64) (fun b _ => b.orderCount ≤ 2) b₂
        steady ∧ (Runs.exec (OrderBook.call .int64) b₂ steady).any
          (fun y => y.2.orderCount = 2) = true := by simpa using hrest
    obtain ⟨replies, b, hsteady, hkeep⟩ := steady_state_never_allocates .int64 .array 1 90 110 1
      .none fill more steady replies₁ replies₂ b₁ b₂ (by decide) hfill hmore (by decide)
      (by rw [hcount₁]; exact halong)
    have hcount : b.orderCount = 2 := Runs.exec_any (P := fun _ b => b.orderCount = 2) hsteady hend
    exact ⟨replies₁, replies₂, replies, b₁, b₂, b, hfill, hmore, hsteady, hcount,
      hkeep (by rw [hcount, hcount₁]; decide)⟩

end LightningLob
