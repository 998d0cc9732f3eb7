import LightningLob.Matching
import LightningLob.ReferenceBook
import LightningLob.SideOperations

/-! # Every operation of a book is the reference's

    `BookRep` is the representation invariant of a book over any lawful level
    container: each side stands for a list of queues, and the slots of all
    queues are the live slots of the storage.  Every operation, run from such
    a book, terminates without a fault, keeps the invariant, and does to the
    resting orders what the reference book says. -/

namespace LightningLob

open LevelStore

/-! ## Section 1: The invariant and the abstraction -/

section replacing

variable {S : Type} (b : OrderBook S) (side : Side) (s : S) (pool : OrderPool) (ids : IdIndexMap)

namespace OrderBook

/-- A book with one side, the pool and the id index replaced. -/
def replace : OrderBook S := { b.setLevels side s with pool := pool, idIndex := ids }

@[simp] theorem replace_pool : (b.replace side s pool ids).pool = pool := rfl

@[simp] theorem replace_idIndex : (b.replace side s pool ids).idIndex = ids := rfl

@[simp] theorem replace_symbol : (b.replace side s pool ids).symbol = b.symbol := by
  cases side <;> rfl

@[simp] theorem replace_stpPolicy : (b.replace side s pool ids).stpPolicy = b.stpPolicy := by
  cases side <;> rfl

@[simp] theorem replace_same : (b.replace side s pool ids).levels side = s := by
  cases side <;> rfl

@[simp] theorem replace_opposite :
    (b.replace side s pool ids).levels side.opposite = b.levels side.opposite := by
  cases side <;> rfl

end OrderBook

end replacing

section abstraction

variable {S : Type} [LevelStore S]

namespace OrderBook

variable [LawfulLevelStore S]

/-- The resting orders of a side, read off its levels and their chains: best
    price first and, within a price, in queue order. -/
def resting (b : OrderBook S) (side : Side) : List Order :=
  (LawfulLevelStore.view side (b.levels side)).flatMap fun level =>
    (IndexLinks.follow b.pool.next b.pool.nodes.length level.head).map b.pool.orderAt

/-- The reference book a book stands for. -/
def reference (b : OrderBook S) : RefBook := ⟨b.symbol, b.stpPolicy, b.inRange, b.resting⟩

@[simp] theorem reference_orders (b : OrderBook S) : b.reference.orders = b.resting := rfl

@[simp] theorem reference_policy (b : OrderBook S) : b.reference.policy = b.stpPolicy := rfl

@[simp] theorem reference_inRange (b : OrderBook S) : b.reference.inRange = b.inRange := rfl

end OrderBook

variable [LawfulLevelStore S]

/-- The representation invariant: `qs side` are the queues of a side's levels,
    best first. -/
structure BookRep (pf : Platform) (nz : Prop) (b : OrderBook S) (qs : Side → List (List Nat)) :
    Prop where
  sides : ∀ side, SideRep pf b.pool side (b.levels side) (qs side)
  store : Store nz b.pool b.idIndex ((qs .buy).flatten ++ (qs .sell).flatten)
  range : inRange b.asks = inRange b.bids

/-- A book reached by correct operation. -/
def OrderBook.Valid (pf : Platform) (nz : Prop) (b : OrderBook S) : Prop :=
  ∃ qs, BookRep pf nz b qs

variable {pf : Platform} {nz : Prop} {b : OrderBook S} {qs : Side → List (List Nat)}

theorem levels_resting {pool : OrderPool} {side : Side} {ls : List PriceLevel}
    {qs : List (List Nat)} (h : List.Forall₂ (LevelOk pf pool side) ls qs) :
    (ls.flatMap fun level =>
      (IndexLinks.follow pool.next pool.nodes.length level.head).map pool.orderAt) =
      qs.flatten.map pool.orderAt := by
  induction h with
  | nil => rfl
  | cons hl _ ih =>
    rw [List.flatMap_cons, List.flatten_cons, List.map_append, ih, hl.rep.queue.follow_eq]

namespace BookRep

theorem resting_eq (h : BookRep pf nz b qs) (side : Side) :
    b.resting side = (qs side).flatten.map b.pool.orderAt :=
  levels_resting (h.sides side).levels

theorem store_at (h : BookRep pf nz b qs) (side : Side) :
    Store nz b.pool b.idIndex ((qs side).flatten ++ (qs side.opposite).flatten) := by
  cases side with
  | buy => exact h.store
  | sell => exact h.store.perm List.perm_append_comm

theorem range_at (h : BookRep pf nz b qs) (side : Side) :
    inRange (b.levels side) = inRange b.bids := by
  cases side with
  | buy => rfl
  | sell => exact h.range

theorem all_eq (h : BookRep pf nz b qs) :
    b.reference.all = ((qs .buy).flatten ++ (qs .sell).flatten).map b.pool.orderAt := by
  rw [RefBook.all, OrderBook.reference_orders, h.resting_eq, h.resting_eq, List.map_append]

/-- The orders in live slots are the resting orders. -/
theorem mem_all_of_live (h : BookRep pf nz b qs) {side : Side} {i : Nat}
    (hi : i ∈ (qs side).flatten ++ (qs side.opposite).flatten) :
    b.pool.orderAt i ∈ b.reference.all := by
  rw [h.all_eq]
  refine List.mem_map_of_mem ?_
  cases side with
  | buy => exact hi
  | sell => exact List.perm_append_comm.mem_iff.mp hi

/-- The id index finds what the reference finds. -/
theorem find_eq (h : BookRep pf nz b qs) (id : OrderId) :
    b.idIndex.find id = some (b.idIndex.lookup id) ∧
      b.reference.find id = (b.idIndex.lookup id).map b.pool.orderAt := by
  refine ⟨h.store.wf.find_eq id, ?_⟩
  cases hl : b.idIndex.lookup id with
  | none =>
    rw [Option.map_none, RefBook.find_eq_none]
    by_cases hid : id = kInvalidOrderId
    · exact Or.inl hid
    · refine Or.inr fun o ho hoid => ?_
      rw [h.all_eq] at ho
      obtain ⟨i, hi, rfl⟩ := List.mem_map.mp ho
      rw [(h.store.lookup id i).mpr ⟨hid, hi, hoid⟩] at hl
      cases hl
  | some i =>
    -- both find the one live order with this id
    obtain ⟨hid, hi, hoid⟩ := (h.store.lookup id i).mp hl
    cases hf : b.reference.find id with
    | none =>
      rcases RefBook.find_eq_none.mp hf with hc | hc
      · exact (hid hc).elim
      · exact (hc _ (by rw [h.all_eq]; exact List.mem_map_of_mem hi) hoid).elim
    | some o =>
      obtain ⟨-, ho, hoid'⟩ := RefBook.find_some hf
      rw [h.all_eq] at ho
      obtain ⟨j, hj, rfl⟩ := List.mem_map.mp ho
      rw [h.store.id_unique hi hj (hoid ▸ hid) (hoid'.trans hoid.symm)]
      rfl

/-- Replacing one side, with the other side's slots left alone. -/
theorem replace (h : BookRep pf nz b qs) {side : Side} {s : S} {pool : OrderPool}
    {ids : IdIndexMap} {qs' : List (List Nat)} (hside : SideRep pf pool side s qs')
    (hstore : Store nz pool ids (qs'.flatten ++ (qs side.opposite).flatten))
    (hframe : SameOn (qs side.opposite).flatten b.pool pool)
    (hlen : b.pool.nodes.length ≤ pool.nodes.length)
    (hrange : inRange s = inRange (b.levels side)) :
    BookRep pf nz (b.replace side s pool ids) (Function.update qs side qs') := by
  -- the other side's levels only depend on its own slots
  have hother : SideRep pf pool side.opposite (b.levels side.opposite) (qs side.opposite) :=
    ⟨(h.sides _).wf, levels_congr (h.sides _).levels hframe hlen⟩
  refine ⟨?_, ?_, ?_⟩
  · intro side'
    rcases side.eq_or_opposite side' with rfl | rfl
    · simpa using hside
    · simpa using hother
  · cases side with
    | buy => simpa [Side.opposite] using hstore
    | sell => simpa [Side.opposite] using hstore.perm List.perm_append_comm
  · cases side with
    | buy => exact h.range.trans hrange.symm
    | sell => exact hrange.trans h.range

/-- What that does to the resting orders. -/
theorem reference_replace (h : BookRep pf nz b qs) {side : Side} {s : S} {pool : OrderPool}
    {ids : IdIndexMap} {qs' : List (List Nat)} (hside : SideRep pf pool side s qs')
    (hstore : Store nz pool ids (qs'.flatten ++ (qs side.opposite).flatten))
    (hframe : SameOn (qs side.opposite).flatten b.pool pool)
    (hlen : b.pool.nodes.length ≤ pool.nodes.length)
    (hrange : inRange s = inRange (b.levels side)) :
    (b.replace side s pool ids).reference =
      b.reference.setOrders side (qs'.flatten.map pool.orderAt) := by
  have h' := h.replace hside hstore hframe hlen hrange
  have hrest : (b.replace side s pool ids).resting =
      Function.update b.resting side (qs'.flatten.map pool.orderAt) := by
    funext side'
    rw [h'.resting_eq]
    rcases side.eq_or_opposite side' with rfl | rfl
    · simp
    · rw [Function.update_of_ne side.opposite_ne, Function.update_of_ne side.opposite_ne,
        h.resting_eq]
      exact hframe.map_orderAt
  have hin : (b.replace side s pool ids).inRange = b.inRange := by
    funext p
    cases side with
    | buy => exact congrFun hrange p
    | sell => rfl
  unfold OrderBook.reference RefBook.setOrders
  rw [hrest, hin]
  simp

end BookRep

end abstraction

/-! ## Section 2: Matching and resting -/

section operations

variable {S : Type} [LevelStore S] [LawfulLevelStore S] {pf : Platform} {nz : Prop}
  {b : OrderBook S} {qs : Side → List (List Nat)}

namespace BookRep

/-- `match_against_book` is the reference fold. -/
theorem match_spec (h : BookRep pf nz b qs) (taker : Order) (now : Nat → Timestamp) {r : Fold}
    (hf : Folds b.stpPolicy taker taker.remainingQuantity
      (reachable taker (b.resting taker.side.opposite)) r) :
    ∃ b' qs', b.matchAgainstBook pf taker now =
        some (r.killed, { taker with remainingQuantity := r.remaining },
          tradesOf b.symbol taker now 0 r.fills, b') ∧
      BookRep pf nz b' qs' ∧ b'.reference = b.reference.setOrders taker.side.opposite
        (r.rest ++ beyond taker (b.resting taker.side.opposite)) := by
  have hside := h.sides taker.side.opposite
  have hstore := h.store_at taker.side.opposite
  -- every level has an order, and every order a slot of the pool
  have hfuel : (qs taker.side.opposite).length < b.pool.nodes.length + 1 := by
    have h₁ := levels_length_le hside.levels
    have h₂ := hstore.part.length_eq
    simp only [List.length_append, List.length_range] at h₂
    omega
  rw [h.resting_eq] at hf ⊢
  obtain ⟨s', m', qs', hrun, hm⟩ := matchLoop_spec b.symbol now (b.pool.nodes.length + 1)
    (m := ⟨taker, b.pool, b.idIndex, []⟩) hside rfl hstore hfuel hf
  have hlen := Nat.le_of_eq hm.length.symm
  refine ⟨b.replace taker.side.opposite s' m'.pool m'.idIndex,
    Function.update qs taker.side.opposite qs', ?_,
    h.replace hm.rep hm.store hm.frame hlen hm.range_eq, ?_⟩
  · simp only [OrderBook.matchAgainstBook, hrun, Option.bind_eq_bind, Option.bind_some,
      hm.taker_eq, hm.trades]
    rfl
  · rw [h.reference_replace hm.rep hm.store hm.frame hlen hm.range_eq, hm.orders]

/-- `rest_order` puts the order behind its price. -/
theorem rest_spec (h : BookRep pf nz b qs) (order : Order)
    (hplaced : Placed order.side order.price order) (hrange : b.inRange order.price = true)
    (hfresh : ∀ o ∈ b.reference.all, o.id = order.id → order.id = kInvalidOrderId)
    (hnz : nz → order.id ≠ kInvalidOrderId) :
    ∃ b' qs', b.restOrder pf order = some b' ∧ BookRep pf nz b' qs' ∧
      b'.reference = b.reference.rest order := by
  have hside := h.sides order.side
  have hstore := h.store_at order.side
  -- `rest_order`: acquire a slot, push it back on its level, index its id
  obtain ⟨i, p₁, hacq, hi, hgrow, hnot, hpart, ho, -, hkeep⟩ :=
    OrderPool.acquire_spec pf hstore.part order
  rw [List.mem_append, not_or] at hnot
  have hkept : SameOn ((qs order.side).flatten ++ (qs order.side.opposite).flatten) b.pool p₁ :=
    ⟨fun j hj => (hkeep j hj).1, fun j hj => (hkeep j hj).2.1, fun j hj => (hkeep j hj).2.2⟩
  have hside₁ : SideRep pf p₁ order.side (b.levels order.side) (qs order.side) :=
    ⟨hside.wf, levels_congr hside.levels hkept.left hgrow⟩
  obtain ⟨s', p₂, qs', xs, ys, hup, hj⟩ := hside₁.upsert_spec (List.nodup_append.mp hstore.nodup).1
    hi hnot.1 (by rw [ho]; exact hplaced) (by rw [ho, h.range_at]; exact hrange)
  rw [ho] at hup
  have ho₂ : p₂.orderAt i = order := by rw [hj.orders, ho]
  -- the live slots are those of before and the new one
  have hflat : (i :: ((qs order.side).flatten ++ (qs order.side.opposite).flatten)).Perm
      (qs'.flatten ++ (qs order.side.opposite).flatten) := by
    rw [hj.before, hj.after]
    simpa using List.perm_middle.symm
  -- the new id is in no live slot
  have hpart₂ : (i :: ((qs order.side).flatten ++ (qs order.side.opposite).flatten ++
      p₂.freeList)).Perm (List.range p₂.nodes.length) := by
    rw [hj.free, hj.length]; exact hpart
  obtain ⟨fresh, ids', hins, hstore'⟩ := hstore.insert hpart₂
    (by rw [List.mem_append, not_or]; exact hnot)
    (fun j hjl => by rw [hj.orders, (hkeep j hjl).1])
    (fun j hjl hje => by
      rw [ho₂] at hje ⊢
      exact hfresh _ (h.mem_all_of_live hjl) hje)
    (by rw [ho₂]; exact hnz)
  rw [ho₂] at hins
  -- neither step touches a slot of the other side
  have hframe : SameOn (qs order.side.opposite).flatten b.pool p₂ := by
    refine hkept.right.trans (sameOn_of_notMem (fun j _ => by rw [hj.orders]) hj.links ?_)
    intro j hjo hjq
    have hnd := hflat.nodup_iff.mp (List.nodup_cons.mpr
      ⟨by rw [List.mem_append, not_or]; exact hnot, hstore.nodup⟩)
    exact (List.nodup_append.mp hnd).2.2 j hjq j hjo rfl
  have hlen : b.pool.nodes.length ≤ p₂.nodes.length := by rw [hj.length]; exact hgrow
  have hstore₂ := hstore'.perm hflat.symm
  refine ⟨b.replace order.side s' p₂ ids', Function.update qs order.side qs', ?_,
    h.replace hj.rep hstore₂ hframe hlen hj.range_eq, ?_⟩
  · simp only [OrderBook.restOrder, hacq, Option.bind_eq_bind, Option.bind_some, hup, hins]
    rfl
  · rw [h.reference_replace hj.rep hstore₂ hframe hlen hj.range_eq]
    -- the side splits around the new order as the reference places it
    have hrest : b.reference.orders order.side = xs.map p₂.orderAt ++ ys.map p₂.orderAt := by
      rw [OrderBook.reference_orders, h.resting_eq, ← List.map_append, ← hj.before, hj.orders]
      exact hkept.left.map_orderAt.symm
    rw [RefBook.rest, hrest, RefBook.place_eq, hj.after, List.map_append, List.map_cons, ho₂]
    · intro x hx
      obtain ⟨j, hjx, rfl⟩ := List.mem_map.mp hx
      have := hj.ahead j hjx
      rwa [ho, ← hj.orders] at this
    · intro y hy
      obtain ⟨j, hjy, rfl⟩ := List.mem_map.mp hy
      have := hj.behind j hjy
      rwa [ho, ← hj.orders] at this

end BookRep

/-! ## Section 3: Observations -/

/-- The code's dry run only reads prices and aggregates. -/
theorem liquidityLoop_eq (pf : Platform) (side : Side) (type : OrderType) (limitPrice needed : Int)
    (ls : List PriceLevel) (acc : Int) :
    liquidityLoop pf side type limitPrice needed acc (ls.map fun l => (l.price, l)) =
      liquid pf side type limitPrice needed acc (ls.map Ladder.entry) := by
  induction ls generalizing acc with
  | nil => rfl
  | cons l ls ih => simp only [List.map_cons, liquidityLoop, liquid, Ladder.entry, ih]

/-- The levels of a side are the runs of equal prices of its orders. -/
theorem levels_groups {pool : OrderPool} {side : Side} {ls : List PriceLevel}
    {qs : List (List Nat)} (h : List.Forall₂ (LevelOk pf pool side) ls qs)
    (hs : Ladder.Sorted side ls) :
    groups (qs.flatten.map pool.orderAt) = qs.map (List.map pool.orderAt) := by
  have hprice : ∀ {l q}, LevelOk pf pool side l q →
      ∀ o ∈ q.map pool.orderAt, o.price = l.price := by
    intro l q hl o ho
    obtain ⟨i, hi, rfl⟩ := List.mem_map.mp ho
    exact (hl.placed i hi).price_eq
  rw [List.map_flatten, groups]
  -- splitting by price gives the queues back: none is empty, prices are equal
  -- within one and differ from one to the next
  refine List.splitBy_flatten ?_ ?_ ?_
  · intro hc
    obtain ⟨q, hq, he⟩ := List.mem_map.mp hc
    obtain ⟨l, -, hl⟩ := levels_of_mem h hq
    exact hl.ne (List.map_eq_nil_iff.mp he)
  · -- one price within a level
    intro g hg
    obtain ⟨q, hq, rfl⟩ := List.mem_map.mp hg
    obtain ⟨l, -, hl⟩ := levels_of_mem h hq
    refine (List.pairwise_of_forall_mem_list ?_).isChain
    intro a ha b hb
    simp [hprice hl a ha, hprice hl b hb]
  · -- another price in the next
    refine List.Pairwise.isChain ?_
    induction h with
    | nil => exact List.Pairwise.nil
    | @cons l q ls qs hl hls ih =>
      obtain ⟨hbet, hs'⟩ := List.pairwise_cons.mp hs
      refine List.pairwise_cons.mpr ⟨?_, ih hs'⟩
      intro g hg
      obtain ⟨q', hq', rfl⟩ := List.mem_map.mp hg
      obtain ⟨l', hl', hok⟩ := levels_of_mem hls hq'
      refine ⟨by simpa using hl.ne, by simpa using hok.ne, ?_⟩
      rw [hprice hl _ (List.getLast_mem _), hprice hok _ (List.head_mem _)]
      simpa using Ladder.ne_of_better (hbet l' hl')

/-- A level's depth entry is that of its queue. -/
theorem LevelOk.entry_eq {pool : OrderPool} {side : Side} {l : PriceLevel} {q : List Nat}
    (h : LevelOk pf pool side l q) : levelView pf (q.map pool.orderAt) = Ladder.entry l := by
  obtain ⟨i, q, rfl⟩ := List.exists_cons_of_ne_nil h.ne
  unfold levelView Ladder.entry
  rw [h.rep.total, h.rep.queue.count]
  simp [(h.placed i (by simp)).price_eq, openQuantity, quantityOf, Function.comp_def]

theorem levels_entries {pool : OrderPool} {side : Side} {ls : List PriceLevel}
    {qs : List (List Nat)} (h : List.Forall₂ (LevelOk pf pool side) ls qs) :
    ls.map Ladder.entry = qs.map fun q => levelView pf (q.map pool.orderAt) := by
  induction h with
  | nil => rfl
  | cons hl _ ih => rw [List.map_cons, List.map_cons, ih, hl.entry_eq]

namespace BookRep

/-- The ladder of a side is the depth of its orders. -/
theorem entries_eq (h : BookRep pf nz b qs) (side : Side) :
    (LawfulLevelStore.view side (b.levels side)).map Ladder.entry =
      depthOf pf (b.resting side) := by
  have hside := h.sides side
  rw [levels_entries hside.levels, depthOf, h.resting_eq,
    levels_groups hside.levels (LawfulLevelStore.sorted hside.wf), List.map_map]
  rfl

/-- Every depth query of a side reads its full depth. -/
theorem depth_eq (h : BookRep pf nz b qs) (side : Side) (n : Nat) :
    depth side (b.levels side) n = some ((depthOf pf (b.resting side)).take n) := by
  rw [LawfulLevelStore.depth_eq (h.sides side).wf, List.map_take, h.entries_eq]

/-- The best price of a side is its first order's. -/
theorem best_eq (h : BookRep pf nz b qs) (side : Side) :
    best side (b.levels side) = (b.resting side).head?.map Order.price := by
  have hside := h.sides side
  rw [LawfulLevelStore.best_eq hside.wf, h.resting_eq]
  cases hview : LawfulLevelStore.view side (b.levels side) with
  | nil =>
    have hlevels := hside.levels
    rw [hview] at hlevels
    rw [List.forall₂_nil_left_iff.mp hlevels]
    rfl
  | cons l ls =>
    have hlevels := hside.levels
    rw [hview] at hlevels
    obtain ⟨q, qs', hl, -, hqs⟩ := List.forall₂_cons_left_iff.mp hlevels
    obtain ⟨i, q, rfl⟩ := List.exists_cons_of_ne_nil hl.ne
    rw [hqs]
    simp [(hl.placed i (by simp)).price_eq]

/-- `has_liquidity_for` sums the reference's levels. -/
theorem hasLiquidityFor_eq (h : BookRep pf nz b qs) (takerSide : Side) (type : OrderType)
    (limitPrice needed : Int) :
    b.hasLiquidityFor pf takerSide type limitPrice needed =
      some (liquid pf takerSide.opposite type limitPrice needed 0
        (depthOf pf (b.resting takerSide.opposite))) := by
  rw [OrderBook.hasLiquidityFor, LawfulLevelStore.hasLiquidity_eq (h.sides _).wf,
    liquidityLoop_eq, h.entries_eq]

/-- The checks of `add_order` are the reference's. -/
theorem rejectReason_eq (h : BookRep pf nz b qs) (order : Order) :
    b.rejectReason order = some (b.reference.rejectReason order) := by
  have hcontains : b.idIndex.contains order.id = some (b.reference.find order.id).isSome := by
    rw [h.store.wf.contains_eq, (h.find_eq order.id).2, Option.isSome_map]
  unfold OrderBook.rejectReason RefBook.rejectReason
  rw [OrderBook.reference_inRange, hcontains]
  by_cases h₁ : order.quantity ≤ 0
  · simp [h₁]
  by_cases h₂ : order.type = .limit ∧ order.price ≤ 0
  · simp [h₁, h₂]
  by_cases h₃ : order.type = .limit ∧ ¬ b.inRange order.price = true
  · rw [if_neg h₁, if_neg h₂, if_pos h₃, if_neg h₁, if_neg h₂, if_pos h₃]
    rfl
  rw [if_neg h₁, if_neg h₂, if_neg h₃, if_neg h₁, if_neg h₂, if_neg h₃]
  by_cases h₄ : order.id = kInvalidOrderId
  · have hnone : b.reference.find order.id = none := RefBook.find_eq_none.mpr (Or.inl h₄)
    rw [if_pos h₄, hnone]
    rfl
  · rw [if_neg h₄]
    rfl

theorem fokKilled_eq (h : BookRep pf nz b qs) (order : Order) :
    b.fokKilled pf order = some (b.reference.fokKilled pf order) := by
  unfold OrderBook.fokKilled RefBook.fokKilled
  rw [h.hasLiquidityFor_eq]
  by_cases hfok : order.timeInForce = .fok <;> simp [hfok]

/-- A Limit order that does not cross reaches no maker. -/
theorem reachable_of_not_crosses (h : BookRep pf nz b qs) {order : Order}
    (htype : order.type = .limit) (hc : b.crosses order = false) :
    reachable order (b.resting order.side.opposite) = [] ∧
      beyond order (b.resting order.side.opposite) = b.resting order.side.opposite := by
  have hbest := h.best_eq order.side.opposite
  have hprio : Priority order.side.opposite (b.resting order.side.opposite) := by
    rw [h.resting_eq]; exact (h.sides _).priority
  cases hrest : b.resting order.side.opposite with
  | nil => exact ⟨rfl, rfl⟩
  | cons o os =>
    rw [hrest] at hprio hbest
    refine reachable_eq_nil (hprio.out_of_reach ?_)
    unfold OrderBook.crosses OrderBook.bestAsk OrderBook.bestBid at hc
    unfold reaches priceOk
    cases hs : order.side <;> rw [hs] at hbest hc <;>
      simp only [Side.opposite, OrderBook.levels, List.head?_cons, Option.map_some] at hbest <;>
      rw [hbest] at hc <;> simpa [htype] using hc

end BookRep

end operations

end LightningLob
