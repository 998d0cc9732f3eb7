import LightningLob.BookRefinement

/-! # The public operations refine the reference book

    `add_order`, `cancel_order`, `amend_order` and `reset`, each run from a
    valid book: the call returns, its report and trades are the reference's,
    and the book it leaves is valid and stands for the reference's next book. -/

namespace LightningLob

open LevelStore

section operations

variable {S : Type} [LevelStore S] [LawfulLevelStore S] {pf : Platform} {nz : Prop}
  {b : OrderBook S} {qs : Side → List (List Nat)}

/-- The outcome of a call is the reference's. -/
structure Refines (pf : Platform) (nz : Prop) (out : Outcome S) (ref : RefOutcome) : Prop where
  valid : out.book.Valid pf nz
  report : out.report = ref.report
  trades : out.trades = ref.trades
  book : out.book.reference = ref.book

namespace BookRep

/-! ## Section 1: Adding an order -/

/-- The matching step of `add_order`, whether or not the loop is entered. -/
theorem matchStep_spec (h : BookRep pf nz b qs) (order : Order) (now : Nat → Timestamp) :
    ∃ b' qs', b.matchStep pf order now = some ((b.reference.matched order).killed,
        { order with remainingQuantity := (b.reference.matched order).remaining },
        tradesOf b.symbol order now 0 (b.reference.matched order).fills, b') ∧
      BookRep pf nz b' qs' ∧ b'.reference = b.reference.afterMatch order := by
  unfold OrderBook.matchStep
  by_cases henter : order.type = .market ∨ order.timeInForce = .fok ∨ b.crosses order = true
  · rw [if_pos henter]
    exact h.match_spec order now (fold_folds _ _ _ _)
  · -- nothing is within reach, so the fold is empty
    rw [if_neg henter]
    rw [not_or, not_or] at henter
    have htype : order.type = .limit := by
      cases ht : order.type with
      | limit => rfl
      | market => exact (henter.1 ht).elim
    obtain ⟨hnone, hall⟩ := h.reachable_of_not_crosses htype (by simpa using henter.2.2)
    have hm : b.reference.matched order = ⟨[], [], [], order.remainingQuantity, false⟩ := by
      rw [RefBook.matched, OrderBook.reference_orders, hnone]
      rfl
    refine ⟨b, qs, by rw [hm]; rfl, h, ?_⟩
    rw [RefBook.afterMatch, hm, OrderBook.reference_orders, hall, List.nil_append]
    exact (RefBook.setOrders_self b.reference _).symm

/-- An accepted order. -/
theorem execute_spec (h : BookRep pf nz b qs) (order : Order) (now : Nat → Timestamp)
    (hok : b.reference.rejectReason order = none) (hopen : 0 ≤ order.remainingQuantity)
    (hnz : nz → b.reference.Joins order → order.id ≠ kInvalidOrderId) :
    ∃ out, b.execute pf order now = some out ∧
      Refines pf nz out (b.reference.execute order now) := by
  obtain ⟨-, hprice, hfind⟩ := RefBook.rejectReason_eq_none.mp hok
  obtain ⟨b₁, qs₁, hrun, hrep₁, href₁⟩ := h.matchStep_spec order now
  have hrem : 0 ≤ (b.reference.matched order).remaining :=
    (fold_folds _ _ _ _).remaining_nonneg hopen
  simp only [OrderBook.execute, hrun, Option.bind_eq_bind, Option.bind_some, OrderBook.conclude,
    RefBook.execute]
  -- the report branches: filled, resting, or the rest discarded
  by_cases hfull : (b.reference.matched order).remaining = 0
  · rw [if_pos hfull, if_pos hfull]
    exact ⟨_, rfl, ⟨qs₁, hrep₁⟩, rfl, rfl, href₁⟩
  rw [if_neg hfull, if_neg hfull]
  by_cases hrests : ¬ (b.reference.matched order).killed = true ∧ order.restsInBook = true
  · obtain ⟨htype, htif⟩ : order.type = .limit ∧ order.timeInForce = .gtc := by
      simpa [Order.restsInBook] using hrests.2
    obtain ⟨b₂, qs₂, hrest, hrep₂, href₂⟩ := hrep₁.rest_spec
      { order with remainingQuantity := (b.reference.matched order).remaining }
      ⟨rfl, rfl, (hprice htype).1, by simp; omega, hrests.2⟩
      (by
        have := congrArg RefBook.inRange href₁
        rw [OrderBook.reference_inRange] at this
        rw [this]
        exact (hprice htype).2)
      (by
        -- matching brings in no id, so the order's own is still free
        rw [href₁]
        intro o ho hid
        obtain ⟨side, ho⟩ := RefBook.mem_all.mp ho
        obtain ⟨m, hm, heq, -, -⟩ := RefBook.mem_afterMatch ho
        rcases RefBook.find_eq_none.mp hfind with hz | hne
        · exact hz
        · exact (hne m (RefBook.mem_all.mpr ⟨side, hm⟩) (by rw [heq] at hid; exact hid)).elim)
      (fun hz => hnz hz ⟨by omega, hrests⟩)
    have hrests' : ¬ (b.reference.matched order).killed = true ∧
        { order with remainingQuantity := (b.reference.matched order).remaining }.restsInBook =
          true := hrests
    rw [if_pos hrests', if_pos hrests, hrest]
    exact ⟨_, rfl, ⟨qs₂, hrep₂⟩, rfl, rfl, by rw [href₂, href₁]⟩
  · have hrests' : ¬ (¬ (b.reference.matched order).killed = true ∧
        { order with remainingQuantity := (b.reference.matched order).remaining }.restsInBook =
          true) := hrests
    rw [if_neg hrests', if_neg hrests]
    exact ⟨_, rfl, ⟨qs₁, hrep₁⟩, rfl, rfl, href₁⟩

/-- `add_order`. -/
theorem addOrder_spec (h : BookRep pf nz b qs) (order : Order) (now : Nat → Timestamp)
    (hnz : nz → b.reference.rejectReason order = none → b.reference.Joins order.opened →
      order.id ≠ kInvalidOrderId) :
    ∃ out, b.addOrder pf order now = some out ∧
      Refines pf nz out (b.reference.addOrder pf order now) := by
  simp only [OrderBook.addOrder, RefBook.addOrder, h.rejectReason_eq, h.fokKilled_eq,
    Option.bind_eq_bind, Option.bind_some]
  cases hreject : b.reference.rejectReason order with
  | some reason => exact ⟨_, rfl, ⟨qs, h⟩, rfl, rfl, rfl⟩
  | none =>
    cases hfok : b.reference.fokKilled pf order with
    | true => exact ⟨_, rfl, ⟨qs, h⟩, rfl, rfl, rfl⟩
    | false =>
      have hqty := (RefBook.rejectReason_eq_none.mp hreject).1
      exact h.execute_spec order.opened now hreject (Int.le_of_lt hqty) fun hz => hnz hz hreject

/-! ## Section 2: Cancelling, amending and resetting -/

/-- A live slot is on the side of its order. -/
theorem mem_side (h : BookRep pf nz b qs) {i : Nat}
    (hi : i ∈ (qs .buy).flatten ++ (qs .sell).flatten) :
    i ∈ (qs (b.pool.orderAt i).side).flatten := by
  have hside : ∀ side, i ∈ (qs side).flatten → i ∈ (qs (b.pool.orderAt i).side).flatten := by
    intro side hs
    obtain ⟨l, -, hp⟩ := levels_placed (h.sides side).levels hs
    rw [hp.side_eq]
    exact hs
  rcases List.mem_append.mp hi with hi | hi
  · exact hside _ hi
  · exact hside _ hi

/-- Every other live slot has another id. -/
theorem id_ne (h : BookRep pf nz b qs) {id : OrderId} {i : Nat}
    (hl : b.idIndex.lookup id = some i) (side : Side) {j : Nat} (hj : j ∈ (qs side).flatten)
    (hji : j ≠ i) : (b.pool.orderAt j).id ≠ id := by
  intro hjid
  -- two live slots with one non-zero id would be one slot
  obtain ⟨hid, hi, hoid⟩ := (h.store.lookup id i).mp hl
  have hj' : j ∈ (qs .buy).flatten ++ (qs .sell).flatten := by
    cases side <;> simp [hj]
  exact hji (h.store.id_unique hi hj' (hoid ▸ hid) (hjid.trans hoid.symm))

/-- The side of an indexed order, split around it. -/
theorem resting_split (h : BookRep pf nz b qs) {id : OrderId} {i : Nat}
    (hl : b.idIndex.lookup id = some i) {side : Side} {xs ys : List Nat}
    (hsplit : (qs side).flatten = xs ++ i :: ys) :
    b.reference.orders side =
        xs.map b.pool.orderAt ++ b.pool.orderAt i :: ys.map b.pool.orderAt ∧
      (∀ o ∈ xs.map b.pool.orderAt ++ ys.map b.pool.orderAt, o.id ≠ id) ∧
      (∀ o ∈ b.reference.orders side.opposite, o.id ≠ id) := by
  have hnd := (h.store_at side).nodup
  rw [hsplit] at hnd
  obtain ⟨hnd, -, hdisj⟩ := List.nodup_append.mp hnd
  rw [List.nodup_middle, List.nodup_cons] at hnd
  refine ⟨?_, ?_, ?_⟩
  · rw [OrderBook.reference_orders, h.resting_eq, hsplit, List.map_append, List.map_cons]
  · rw [← List.map_append]
    intro o ho
    obtain ⟨j, hj, rfl⟩ := List.mem_map.mp ho
    refine h.id_ne hl side (by rw [hsplit]; simp at hj ⊢; tauto) ?_
    rintro rfl
    exact hnd.1 hj
  · intro o ho
    rw [OrderBook.reference_orders, h.resting_eq] at ho
    obtain ⟨j, hj, rfl⟩ := List.mem_map.mp ho
    refine h.id_ne hl side.opposite hj ?_
    rintro rfl
    exact hdisj j (by simp) j hj rfl

/-- `cancel_order` of the order in slot `i`. -/
theorem cancelAt_spec (h : BookRep pf nz b qs) {id : OrderId} {i : Nat}
    (hl : b.idIndex.lookup id = some i) :
    ∃ b' qs', b.cancelAt pf id i = some (true, b') ∧ BookRep pf nz b' qs' ∧
      b'.reference = b.reference.remove id := by
  obtain ⟨-, hlive, hoid⟩ := (h.store.lookup id i).mp hl
  have hmem := h.mem_side hlive
  -- the source finds the level by the order's own side and price
  generalize hside : (b.pool.orderAt i).side = side at hmem
  have hstore := h.store_at side
  obtain ⟨level, level', p₁, s', qs', xs, ys, hfind, hunlink, hput, hleft⟩ :=
    (h.sides side).cancel_spec (List.nodup_append.mp hstore.nodup).1 hmem
  have hlt : i < p₁.nodes.length := by rw [hleft.length]; exact h.store.lt hlive
  obtain ⟨p₂, hrel, hnodes, hfree⟩ := OrderPool.release_spec pf hlt
  have ho₂ : p₂.orderAt = b.pool.orderAt := (OrderPool.orderAt_congr hnodes).trans hleft.orders
  have hlen : p₂.nodes.length = b.pool.nodes.length := by rw [hnodes, hleft.length]
  -- releasing a slot leaves every node as it was
  have hsame : ∀ q, SameOn q p₁ p₂ := fun q =>
    ⟨fun j _ => by rw [OrderPool.orderAt_congr hnodes],
      fun j _ => by rw [OrderPool.next_congr hnodes],
      fun j _ => by rw [OrderPool.prev_congr hnodes]⟩
  -- the slots still in use
  have hperm : (i :: (qs'.flatten ++ (qs side.opposite).flatten)).Perm
      ((qs side).flatten ++ (qs side.opposite).flatten) := by
    rw [hleft.before, hleft.after]
    simpa using List.perm_middle.symm
  have hstore₁ := hstore.perm hperm
  obtain ⟨found, ids', herase, hstore₂⟩ := hstore₁.drop hlen (by rw [hfree, hleft.free])
    (fun j _ => by rw [ho₂])
  rw [hoid] at herase
  have hrep : SideRep pf p₂ side s' qs' :=
    ⟨hleft.rep.wf, levels_congr hleft.rep.levels (hsame _) (by rw [hnodes])⟩
  have hframe : SameOn (qs side.opposite).flatten b.pool p₂ := by
    refine (sameOn_of_notMem (fun j _ => by rw [hleft.orders]) hleft.links ?_).trans (hsame _)
    intro j hjo hjs
    exact (List.nodup_append.mp hstore.nodup).2.2 j hjs j hjo rfl
  refine ⟨b.replace side s' p₂ ids', Function.update qs side qs', ?_,
    h.replace hrep hstore₂ hframe (Nat.le_of_eq hlen.symm) hleft.range_eq, ?_⟩
  · simp only [OrderBook.cancelAt, OrderPool.get_eq (h.store.lt hlive), hside, Option.bind_eq_bind,
      Option.bind_some, hfind, hunlink, hput, hrel, herase]
    rfl
  · rw [h.reference_replace hrep hstore₂ hframe (Nat.le_of_eq hlen.symm) hleft.range_eq]
    obtain ⟨horders, hne, hopp⟩ := h.resting_split hl hleft.before
    rw [RefBook.remove_eq horders hoid hne hopp, hleft.after, List.map_append, ho₂]

/-- `cancel_order`. -/
theorem cancelOrder_spec (h : BookRep pf nz b qs) (id : OrderId) :
    ∃ b' qs', b.cancelOrder pf id = some ((b.reference.cancelOrder id).1, b') ∧
      BookRep pf nz b' qs' ∧ b'.reference = (b.reference.cancelOrder id).2 := by
  obtain ⟨hfind, href⟩ := h.find_eq id
  cases hl : b.idIndex.lookup id with
  | none =>
    rw [hl] at hfind href
    refine ⟨b, qs, ?_, h, ?_⟩ <;> simp [OrderBook.cancelOrder, RefBook.cancelOrder, hfind, href]
  | some i =>
    rw [hl] at hfind href
    obtain ⟨b', qs', hrun, hrep, hrem⟩ := h.cancelAt_spec hl
    refine ⟨b', qs', ?_, hrep, ?_⟩ <;>
      simp [OrderBook.cancelOrder, RefBook.cancelOrder, hfind, href, hrun, hrem]

/-- The size-down branch of `amend_order`. -/
theorem amendInPlace_spec (h : BookRep pf nz b qs) {id : OrderId} {i : Nat}
    (hl : b.idIndex.lookup id = some i) {newQuantity : Int} (hq : 0 < newQuantity) :
    ∃ out, b.amendInPlace pf id i (b.pool.orderAt i) newQuantity = some out ∧
      Refines pf nz out ⟨⟨id, .new, 0, newQuantity, .none⟩, [],
        b.reference.resize id newQuantity⟩ := by
  obtain ⟨-, hlive, hoid⟩ := (h.store.lookup id i).mp hl
  have hmem := h.mem_side hlive
  generalize hside : (b.pool.orderAt i).side = side at hmem
  have hstore := h.store_at side
  obtain ⟨level, level', p₁, s', hderef, hred, hwrite, hrep, ho, hnx, hpv, hlen, hfree, hrange⟩ :=
    (h.sides side).resize_spec (List.nodup_append.mp hstore.nodup).1 hmem
      (show 0 < (b.pool.orderAt i).remainingQuantity -
        ((b.pool.orderAt i).remainingQuantity - newQuantity) by omega)
  -- a resize changes no id and frees no slot
  have hstore₁ : Store nz p₁ b.idIndex ((qs side).flatten ++ (qs side.opposite).flatten) := by
    refine hstore.congr hlen hfree ?_
    intro j _
    rw [ho]
    by_cases hj : j = i
    · subst hj; rw [Function.update_self]
    · rw [Function.update_of_ne hj]
  have hframe : SameOn (qs side.opposite).flatten b.pool p₁ := by
    refine ⟨fun j hj => ?_, fun j _ => by rw [hnx], fun j _ => by rw [hpv]⟩
    rw [ho, Function.update_of_ne]
    rintro rfl
    exact (List.nodup_append.mp hstore.nodup).2.2 j hmem j hj rfl
  refine ⟨⟨⟨id, .new, 0, newQuantity, .none⟩, [], b.replace side s' p₁ b.idIndex⟩, ?_,
    ⟨_, h.replace hrep hstore₁ hframe (Nat.le_of_eq hlen.symm) hrange⟩, rfl, rfl, ?_⟩
  · simp only [OrderBook.amendInPlace, hside, Option.bind_eq_bind, Option.bind_some, hderef, hred,
      hwrite]
    cases side <;> rfl
  · rw [h.reference_replace hrep hstore₁ hframe (Nat.le_of_eq hlen.symm) hrange]
    obtain ⟨xs, ys, hsplit⟩ := List.append_of_mem hmem
    obtain ⟨horders, hne, hopp⟩ := h.resting_split hl hsplit
    rw [RefBook.resize_eq horders hoid hne hopp, hsplit]
    have hnd := (List.nodup_append.mp hstore.nodup).1
    rw [hsplit, List.nodup_middle, List.nodup_cons, List.mem_append, not_or] at hnd
    -- only the amended slot differs
    have hkeep : ∀ l : List Nat, i ∉ l → l.map p₁.orderAt = l.map b.pool.orderAt := by
      intro l hl
      refine List.map_congr_left fun j hj => ?_
      rw [ho, Function.update_of_ne]
      rintro rfl
      exact hl hj
    rw [List.map_append, List.map_cons, hkeep xs hnd.1.1, hkeep ys hnd.1.2, ho,
      Function.update_self]
    simp

/-- `amend_order`. -/
theorem amendOrder_spec (h : BookRep pf nz b qs) (id : OrderId) (newQuantity : Int)
    (newPrice : Option Int) (now : Nat → Timestamp) :
    ∃ out, b.amendOrder pf id newQuantity newPrice now = some out ∧
      Refines pf nz out (b.reference.amendOrder pf id newQuantity newPrice now) := by
  obtain ⟨hfind, href⟩ := h.find_eq id
  unfold OrderBook.amendOrder RefBook.amendOrder
  rw [hfind, href]
  cases hl : b.idIndex.lookup id with
  | none => exact ⟨_, rfl, ⟨qs, h⟩, rfl, rfl, rfl⟩
  | some i =>
    obtain ⟨hid, hlive, hoid⟩ := (h.store.lookup id i).mp hl
    simp only [Option.map_some, Option.bind_eq_bind, Option.bind_some]
    by_cases hq : newQuantity ≤ 0
    · rw [if_pos hq, if_pos hq]
      exact ⟨_, rfl, ⟨qs, h⟩, rfl, rfl, rfl⟩
    rw [if_neg hq, if_neg hq, OrderBook.reference_inRange]
    by_cases hr : (newPrice.any fun p => ¬ b.inRange p) = true
    · rw [if_pos hr, if_pos hr]
      exact ⟨_, rfl, ⟨qs, h⟩, rfl, rfl, rfl⟩
    rw [if_neg hr, if_neg hr, OrderPool.get_eq (h.store.lt hlive)]
    simp only [Option.bind_some]
    by_cases hkeep : (¬ (newPrice.any fun p => p ≠ (b.pool.orderAt i).price) = true) ∧
        ¬ newQuantity > (b.pool.orderAt i).remainingQuantity
    · rw [if_pos hkeep, if_pos hkeep]
      exact h.amendInPlace_spec hl (by omega)
    · rw [if_neg hkeep, if_neg hkeep]
      -- priority is lost: cancel, then add the replacement under the same id
      obtain ⟨b₁, qs₁, hcancel, hrep₁, href₁⟩ := h.cancelAt_spec hl
      have hrun : b.cancelOrder pf id = some (true, b₁) := by
        simp [OrderBook.cancelOrder, hfind, hl, hcancel]
      rw [hrun, ← href₁]
      refine hrep₁.addOrder_spec _ _ fun _ _ _ => ?_
      show (b.pool.orderAt i).id ≠ _
      rw [hoid]
      exact hid

/-- A book with empty sides, an empty pool and an empty index. -/
theorem of_empty (hpool : b.pool.nodes = [] ∧ b.pool.freeList = [])
    (hids : b.idIndex.WF ∧ (∀ id, b.idIndex.lookup id = none) ∧ b.idIndex.size = 0 ∧
      Slots.occupied b.idIndex.slots = 0)
    (hwf : ∀ side, LawfulLevelStore.WF side (b.levels side))
    (hview : ∀ side, LawfulLevelStore.view side (b.levels side) = [])
    (hrange : inRange b.asks = inRange b.bids) : BookRep pf nz b fun _ => [] where
  sides := fun side => ⟨hwf side, by rw [hview side]; exact .nil⟩
  store := by
    refine ⟨by simp [hpool], hids.1, ?_, ?_⟩
    · intro id i
      simp [hids.2.1]
    · intro _
      exact ⟨by simp, hids.2.2.1, hids.2.2.1.trans hids.2.2.2.symm⟩
  range := hrange

/-- `reset`: nothing rests any more, so nothing without an id does. -/
theorem reset_spec (h : BookRep pf nz b qs) (nz' : Prop) :
    ∃ b', b.reset = some b' ∧ BookRep pf nz' b' (fun _ => []) ∧
      b'.reference = b.reference.reset := by
  obtain ⟨bids, hbids, hwfb, hviewb, hrangeb⟩ := LawfulLevelStore.clear_spec (h.sides .buy).wf
  obtain ⟨asks, hasks, hwfa, hviewa, hrangea⟩ := LawfulLevelStore.clear_spec (h.sides .sell).wf
  obtain ⟨hwf, hlook, hocc⟩ := h.store.wf.clear_spec
  have hrun : b.reset =
      some ⟨b.symbol, bids, asks, b.pool.reset, b.idIndex.clear, b.stpPolicy⟩ := by
    simp only [OrderBook.reset, show clear b.bids = some bids from hbids,
      show clear b.asks = some asks from hasks, Option.bind_eq_bind, Option.bind_some]
    rfl
  refine ⟨_, hrun, ?_⟩
  have hrep : BookRep pf nz'
      ⟨b.symbol, bids, asks, b.pool.reset, b.idIndex.clear, b.stpPolicy⟩ (fun _ => []) := by
    refine of_empty ⟨rfl, rfl⟩ ⟨hwf, hlook, rfl, hocc⟩ ?_ ?_
      (hrangea.trans (h.range.trans hrangeb.symm))
    · rintro (_ | _)
      · exact hwfb
      · exact hwfa
    · rintro (_ | _)
      · exact hviewb
      · exact hviewa
  refine ⟨hrep, ?_⟩
  have horders : OrderBook.resting
      ⟨b.symbol, bids, asks, b.pool.reset, b.idIndex.clear, b.stpPolicy⟩ = fun _ => [] := by
    funext side
    rw [hrep.resting_eq]
    rfl
  have hin : OrderBook.inRange
      ⟨b.symbol, bids, asks, b.pool.reset, b.idIndex.clear, b.stpPolicy⟩ = b.inRange := by
    funext p
    exact congrFun hrangeb p
  rw [OrderBook.reference, horders, hin]
  rfl

end BookRep

end operations

end LightningLob
