import LightningLob.EngineRuns
import LightningLob.StorageInvariant

/-! # Queue order is time order

    FIFO priority is where an order stands in its queue.  The engine stamps an
    order when it is received and a book stamps a replacement when the amend is
    made, so while the clock does not go back the queues are also in the order
    of their timestamps: taking orders out or resizing them keeps the order, and
    an order joins behind all those of its price. -/

namespace LightningLob

/-! ## Section 1: Lists in time order -/

/-- What an order queues by: its price and its timestamp. -/
def Order.queueKey (o : Order) : Int × Timestamp := (o.price, o.timestamp)

/-- Orders of one price come in the order of their timestamps. -/
def TimeOrdered (os : List Order) : Prop :=
  os.Pairwise fun a b => a.price = b.price → a.timestamp ≤ b.timestamp

section lists

variable {os : List Order} {order : Order}

/-- Leaving orders out, or changing only their quantities, keeps the order. -/
theorem TimeOrdered.thin {os' : List Order} (h : TimeOrdered os)
    (hkeys : (os'.map Order.queueKey).Sublist (os.map Order.queueKey)) : TimeOrdered os' := by
  have hiff : ∀ l : List Order, TimeOrdered l ↔ (l.map Order.queueKey).Pairwise
      fun a b => a.1 = b.1 → a.2 ≤ b.2 := by
    intro l
    rw [List.pairwise_map]
    exact Iff.rfl
  rw [hiff] at h ⊢
  exact h.sublist hkeys

/-- Where an order joins its side, those behind it have worse prices. -/
theorem Priority.worse_behind (h : Priority order.side os) :
    ∀ o ∈ os.dropWhile (fun o => ¬ better order.side order.price o.price),
      better order.side order.price o.price = true := by
  induction os with
  | nil => simp
  | cons x xs ih =>
    obtain ⟨hx, hxs⟩ := List.pairwise_cons.mp h
    cases hb : better order.side order.price x.price with
    | false => simpa [hb] using ih hxs
    | true =>
      simp only [hb, not_true, decide_false, Bool.false_eq_true, not_false_eq_true,
        List.dropWhile_cons_of_neg]
      intro o ho
      rcases List.mem_cons.mp ho with rfl | ho
      · exact hb
      · have hle := hx o ho
        cases hs : order.side <;>
          simp only [hs, better, decide_eq_true_eq, decide_eq_false_iff_not] at * <;> omega

/-- An order that is not older than any other joins in time order. -/
theorem TimeOrdered.place (h : TimeOrdered os) (hprio : Priority order.side os)
    (hpast : ∀ o ∈ os, o.timestamp ≤ order.timestamp) : TimeOrdered (place order os) := by
  have hsplit := List.takeWhile_append_dropWhile
    (p := fun o : Order => decide ¬ better order.side order.price o.price = true) (l := os)
  have hworse := hprio.worse_behind
  unfold LightningLob.place
  rw [← hsplit] at h hpast
  obtain ⟨hfront, hback, hcross⟩ := List.pairwise_append.mp h
  refine List.pairwise_append.mpr ⟨hfront, List.pairwise_cons.mpr ⟨?_, hback⟩, ?_⟩
  · intro o ho hprice
    exact absurd hprice (Ladder.ne_of_better (hworse o ho))
  · intro a ha b hb
    rcases List.mem_cons.mp hb with rfl | hb
    · exact fun _ => hpast a (List.mem_append_left _ ha)
    · exact hcross a ha b hb

/-- The makers left by a fold are some of the makers, at their places. -/
theorem Folds.rest_keys {policy : SelfTradePrevention} {taker : Order} {rem : Int} {r : Fold}
    (h : Folds policy taker rem os r) :
    (r.rest.map Order.queueKey).Sublist (os.map Order.queueKey) := by
  induction h with
  | nil | spent | stop | part => exact List.Sublist.refl _
  | both => exact List.sublist_cons_self _ _
  | skip _ _ _ _ ih => exact ih.cons _
  | fill _ _ _ _ ih => exact ih.cons _

end lists

/-! ## Section 2: Books in time order -/

namespace RefBook

/-- Every side is in time order, and no order is from after `t`. -/
structure InTimeOrder (t : Timestamp) (r : RefBook) : Prop where
  queued : ∀ side, TimeOrdered (r.orders side)
  past : ∀ side, ∀ o ∈ r.orders side, o.timestamp ≤ t

/-- `r'` has some of the orders of `r`, at their places. -/
def Thins (r r' : RefBook) : Prop :=
  ∀ side, ((r'.orders side).map Order.queueKey).Sublist ((r.orders side).map Order.queueKey)

variable {r r' : RefBook} {t : Timestamp} {order : Order}

theorem InTimeOrder.mono {t' : Timestamp} (h : r.InTimeOrder t) (hle : t ≤ t') :
    r.InTimeOrder t' :=
  ⟨h.queued, fun side o ho => Nat.le_trans (h.past side o ho) hle⟩

theorem InTimeOrder.thin (h : r.InTimeOrder t) (hthin : Thins r r') : r'.InTimeOrder t := by
  refine ⟨fun side => (h.queued side).thin (hthin side), ?_⟩
  intro side o ho
  obtain ⟨m, hm, hkey⟩ := List.mem_map.mp
    ((hthin side).mem (List.mem_map_of_mem (f := Order.queueKey) ho))
  have htime : m.timestamp = o.timestamp := congrArg Prod.snd hkey
  rw [← htime]
  exact h.past side m hm

theorem thins_remove (r : RefBook) (id : OrderId) : Thins r (r.remove id) :=
  fun _ => List.filter_sublist.map _

theorem thins_resize (r : RefBook) (id : OrderId) (quantity : Int) :
    Thins r (r.resize id quantity) := by
  intro side
  have hkeys : ((r.resize id quantity).orders side).map Order.queueKey =
      (r.orders side).map Order.queueKey := by
    rw [resize, List.map_map]
    refine List.map_congr_left fun o _ => ?_
    simp only [Function.comp_apply]
    split <;> rfl
  rw [hkeys]

theorem thins_reset (r : RefBook) : Thins r r.reset := fun _ => List.nil_sublist _

theorem Sound.thins_afterMatch {nz : Prop} (h : r.Sound nz) (order : Order) :
    Thins r (r.afterMatch order) := by
  intro side
  rcases order.side.opposite.eq_or_opposite side with rfl | hside
  · have hsplit := (h.priority order.side.opposite).split
    rw [afterMatch, setOrders_same, List.map_append]
    nth_rewrite 2 [← hsplit]
    rw [List.map_append]
    exact ((fold_folds _ _ _ _).rest_keys).append (List.Sublist.refl _)
  · rw [afterMatch, setOrders_of_ne (by rw [hside]; exact Side.opposite_ne _)]

/-- An order of time `t` is matched and may join its side. -/
theorem InTimeOrder.execute {nz : Prop} (h : r.InTimeOrder t) (hs : r.Sound nz)
    (htime : order.timestamp = t) (now : Clock) : (r.execute order now).book.InTimeOrder t := by
  have hmatch := h.thin (hs.thins_afterMatch order)
  have hown : (r.afterMatch order).orders order.side = r.orders order.side :=
    setOrders_of_ne (Side.opposite_ne order.side).symm
  have hrest : ∀ q, ((r.afterMatch order).rest { order with remainingQuantity := q }).InTimeOrder
      t := by
    intro q
    refine ⟨fun side => ?_, fun side o ho => ?_⟩
    · rcases order.side.eq_or_opposite side with rfl | rfl
      · rw [rest, setOrders_same]
        refine (hmatch.queued order.side).place ?_ ?_
        · rw [hown]
          exact hs.priority order.side
        · exact fun o ho => htime ▸ hmatch.past order.side o ho
      · rw [rest, setOrders_of_ne (Side.opposite_ne order.side)]
        exact hmatch.queued order.side.opposite
    · rcases mem_rest.mp ho with ⟨-, rfl⟩ | ho
      · exact Nat.le_of_eq htime
      · exact hmatch.past side o ho
  unfold RefBook.execute
  by_cases h₁ : (r.matched order).remaining = 0
  · simpa only [h₁, if_true] using hmatch
  by_cases h₂ : ¬ (r.matched order).killed = true ∧ order.restsInBook = true
  · simpa only [if_neg h₁, if_pos h₂] using hrest _
  · simpa only [if_neg h₁, if_neg h₂] using hmatch

theorem InTimeOrder.addOrder (pf : Platform) {nz : Prop} (h : r.InTimeOrder t) (hs : r.Sound nz)
    (htime : order.timestamp = t) (now : Clock) :
    (r.addOrder pf order now).book.InTimeOrder t := by
  cases hok : r.rejectReason order with
  | some reason => simpa only [RefBook.addOrder, hok] using h
  | none =>
    cases hfok : r.fokKilled pf order with
    | true => simpa only [RefBook.addOrder, hok, hfok, if_true] using h
    | false =>
      rw [addOrder_accepted hok hfok]
      have hopened : order.opened.timestamp = t := htime
      exact h.execute hs hopened now

theorem InTimeOrder.amendOrder (pf : Platform) {nz : Prop} {now : Clock}
    (h : r.InTimeOrder (now 0)) (hs : r.Sound nz) (id : OrderId) (newQuantity : Int)
    (newPrice : Option Int) :
    (r.amendOrder pf id newQuantity newPrice now).book.InTimeOrder (now 0) := by
  unfold RefBook.amendOrder
  cases r.find id with
  | none => exact h
  | some o =>
    simp only
    split
    · exact h
    split
    · exact h
    split
    -- in place: the order keeps its timestamp and its place
    · exact h.thin (thins_resize r id newQuantity)
    -- the replacement is stamped now and joins anew
    · exact (h.thin (thins_remove r id)).addOrder pf (hs.remove id) rfl _

/-- **Step**: every call keeps the book in time order, an order coming in being
    stamped `t` and an amend reading the clock at `t`. -/
theorem InTimeOrder.call (pf : Platform) {nz : Prop} (h : r.InTimeOrder t) (hs : r.Sound nz)
    (c : Call) (now : Clock) (hadd : ∀ order, c = .add order → order.timestamp = t)
    (hamend : ∀ id quantity price, c = .amend id quantity price → now 0 = t) :
    (r.call pf (c, now)).2.InTimeOrder t := by
  cases c with
  | add order => exact h.addOrder pf hs (hadd order rfl) now
  | cancel id =>
    simp only [RefBook.call, cancelOrder]
    cases r.find id with
    | none => exact h
    | some o => exact h.thin (thins_remove r id)
  | amend id newQuantity newPrice =>
    obtain rfl := hamend id newQuantity newPrice rfl
    exact h.amendOrder pf hs id newQuantity newPrice
  | reset => exact h.thin (thins_reset r)

end RefBook

/-! ## Section 3: Engines -/

namespace MatchingEngine

variable {k : Approach} {pf : Platform} {e e' : MatchingEngine k}

/-- Every book of the engine is in time order, up to `t`. -/
def InTimeOrder (t : Timestamp) (e : MatchingEngine k) : Prop :=
  ∀ s b, e.books s = some b → b.reference.InTimeOrder t

/-- A call that reaches a book does so with the time of its first clock
    reading. -/
theorem Forwards.stamped {a : EngineCall × Clock} {symbol : SymbolId} {c : Call × Clock}
    {rm : RiskManager} {n : UInt64} (h : Forwards pf e a symbol c rm n) :
    (∀ order, c.1 = .add order → order.timestamp = a.2 0) ∧
      ∀ id quantity price, c.1 = .amend id quantity price → c.2 0 = a.2 0 := by
  cases h with
  | submit hcheck =>
    refine ⟨?_, by simp⟩
    intro order heq
    cases heq
    rfl
  | cancel | amend | reset => simp

/-- **Step**: a call keeps the books in time order up to its first clock
    reading. -/
theorem Effect.inTimeOrder {a : EngineCall × Clock} {reply : Reply} (h : e.Effect pf a reply e')
    (hv : e.Valid pf) (ht : e.InTimeOrder (a.2 0)) : e'.InTimeOrder (a.2 0) := by
  cases h with
  | idle | limited | refused => exact ht
  | @registered symbol minPrice maxPrice hint policy now b hnone hb =>
    intro s b₁ hb₁
    by_cases hs : s = symbol.toNat
    · subst hs
      obtain rfl : b = b₁ := by simpa using hb₁
      rw [(Approach.create_spec False hb).2]
      exact ⟨fun _ => List.Pairwise.nil, by simp⟩
    · exact ht s b₁ (by simpa [hs] using hb₁)
  | @booked a symbol c rm n b b' hbook hforward href =>
    intro s b₁ hb₁
    unfold MatchingEngine.booked at hb₁
    by_cases hs : s = symbol
    · subst hs
      obtain rfl : b' = b₁ := by simpa using hb₁
      rw [href]
      exact (ht s b hbook).call pf (hv s b hbook).1.sound c.1 c.2 hforward.stamped.1
        hforward.stamped.2
    · exact ht s b₁ (by simpa [hs] using hb₁)

end MatchingEngine

/-- The timestamps of a level's orders, from its head to its tail. -/
def levelTimestamps (pool : OrderPool) (level : PriceLevel) : List Timestamp :=
  (IndexLinks.follow pool.next pool.nodes.length level.head).map fun i => (pool.orderAt i).timestamp

/-- The levels of a book that is in time order. -/
theorem RefBook.InTimeOrder.levels {pf : Platform} {nz : Prop} {k : Approach} {b : k.Book}
    {t : Timestamp} (h : b.reference.InTimeOrder t) (hv : b.Valid pf nz) {side : Side}
    {f : FiledLevel} (hf : f ∈ k.filed (b.levels side)) :
    (levelTimestamps b.pool f.level).Pairwise (· ≤ ·) := by
  obtain ⟨qs, hrep⟩ := hv
  obtain ⟨q, hfiled, hq⟩ := Approach.filed_of_mem (hrep.sides side) hf
  unfold levelTimestamps
  rw [hfiled.rep.queue.follow_eq]
  by_cases hne : q = []
  · rw [hne]
    exact List.Pairwise.nil
  -- the queue is a stretch of its side, all of it at one price
  have hside := h.queued side
  rw [OrderBook.reference_orders, hrep.resting_eq] at hside
  have hsub : (q.map b.pool.orderAt).Sublist ((qs side).flatten.map b.pool.orderAt) :=
    (List.sublist_flatten_of_mem (hq hne)).map _
  have hqueue := List.pairwise_map.mp (List.Pairwise.sublist hsub hside)
  refine List.pairwise_map.mpr (hqueue.imp_of_mem fun hi hj hle => hle ?_)
  rw [(hfiled.placed _ hi).price_eq, (hfiled.placed _ hj).price_eq]

/-- **Queue order is time order**: in every run of an engine whose clock does
    not go back from call to call, the timestamps of every level of every book
    never decrease from head to tail. -/
theorem queue_order_is_time_order (pf : Platform) (k : Approach) (rm : RiskManager)
    (calls : List (EngineCall × Clock)) (hclock : calls.Pairwise fun a b => a.2 0 ≤ b.2 0) :
    ∃ replies e, Runs.exec (MatchingEngine.call pf) ({ riskManager := rm } : MatchingEngine k)
        calls = some (replies, e) ∧
      ∀ s b, e.books s = some b → ∀ side, ∀ f ∈ k.filed (b.levels side),
        (levelTimestamps b.pool f.level).Pairwise (· ≤ ·) := by
  have hstep : ∀ (e : MatchingEngine k) (a : EngineCall × Clock),
      e.Valid pf ∧ e.InTimeOrder (a.2 0) → ∃ reply e', e.call pf a = some (reply, e') ∧
        e'.Valid pf ∧ e'.InTimeOrder (a.2 0) := by
    rintro e a ⟨hv, ht⟩
    obtain ⟨reply, e', hcall, heffect, hv'⟩ := hv.call_spec a
    exact ⟨reply, e', hcall, hv', heffect.inTimeOrder hv ht⟩
  obtain ⟨replies, e, t, hrun, hv, ht⟩ := Runs.exec_timed
    (P := fun t (e : MatchingEngine k) => e.Valid pf ∧ e.InTimeOrder t)
    (fun t t' e hle h => ⟨h.1, fun s b hb => (h.2 s b hb).mono hle⟩) hstep calls 0
    { riskManager := rm } ⟨MatchingEngine.valid_initial rm, by simp [MatchingEngine.InTimeOrder]⟩
    (by simp) hclock
  exact ⟨replies, e, hrun, fun s b hb side f hf => (ht s b hb).levels (hv s b hb).1 hf⟩

/-- Four orders at one price, of which the first is partly filled, the second
    resized in place and the third replaced. -/
def replacedSession : List (EngineCall × Clock) :=
  [(.addSymbol 1 90 110 4 .none, fun i => i),
   (.submit ⟨1, 1, 7, .sell, .limit, 100, 5, .gtc⟩, fun i => 10 + i),
   (.submit ⟨2, 1, 7, .sell, .limit, 100, 5, .gtc⟩, fun i => 20 + i),
   (.submit ⟨3, 1, 7, .sell, .limit, 100, 5, .gtc⟩, fun i => 30 + i),
   (.submit ⟨4, 1, 7, .sell, .limit, 100, 5, .gtc⟩, fun i => 30 + i),
   (.amend 1 2 3 none, fun i => 40 + i),
   (.amend 1 3 9 none, fun i => 50 + i),
   (.submit ⟨5, 1, 8, .buy, .limit, 100, 2, .ioc⟩, fun i => 60 + i)]

/-- The replaced order stands last, under a new timestamp. -/
theorem queue_order_is_time_order_replaced :
    ∃ replies e, Runs.exec (MatchingEngine.call .int64) ({} : MatchingEngine .vector)
        replacedSession = some (replies, e) ∧
      ((e.books 1).any fun b => b.asks.items.map (levelTimestamps b.pool) = [[10, 20, 30, 50]]) ∧
      ∀ s b, e.books s = some b → ∀ side, ∀ f ∈ Approach.vector.filed (b.levels side),
        (levelTimestamps b.pool f.level).Pairwise (· ≤ ·) := by
  obtain ⟨replies, e, hrun, horder⟩ := queue_order_is_time_order .int64 .vector {} replacedSession
    (by decide)
  exact ⟨replies, e, hrun, Runs.exec_any (P := fun _ e => (e.books 1).any fun b =>
    b.asks.items.map (levelTimestamps b.pool) = [[10, 20, 30, 50]]) hrun (by decide +kernel),
    horder⟩

end LightningLob
