import LightningLob.DepthSnapshots
import LightningLob.Uncrossed

/-! # Cancelling an order

    `cancel_order` takes one order out of the book and leaves everything else
    as it was: the other orders in their queues, the other levels, and the
    aggregates of the order's own level less what it held. -/

namespace LightningLob

open LevelStore

/-! ## Section 1: One order out of a side -/

/-- What is left of a level's depth entry without one of its orders. -/
def PriceLevelView.less (pf : Platform) (level : PriceLevelView) (o : Order) :
    List PriceLevelView :=
  if level.orderCount = 1 then
    []
  else
    [⟨level.price, pf.wrap (level.totalQuantity - o.remainingQuantity), level.orderCount - 1⟩]

section one_side

variable {pf : Platform} {side : Side} {xs ys : List Order} {o : Order}

theorem ordersAt_append (xs ys : List Order) (p : Int) :
    ordersAt (xs ++ ys) p = ordersAt xs p ++ ordersAt ys p :=
  List.filter_append ..

theorem ordersAt_middle (xs ys : List Order) (o : Order) :
    ordersAt (xs ++ o :: ys) o.price = ordersAt xs o.price ++ o :: ordersAt ys o.price := by
  rw [ordersAt_append, ordersAt, ordersAt, List.filter_cons_of_pos (by simp)]
  rfl

/-- **The depth around the orders `ms` of one price**: only that price's entry
    depends on them. -/
theorem Priority.depth_around {ms : List Order} (h : Priority side (xs ++ (ms ++ ys))) {p : Int}
    (hms : ∀ m ∈ ms, m.price = p) (pf : Platform) :
    depthOf pf (xs ++ (ms ++ ys)) =
      depthOf pf ((xs ++ ys).filter fun x => better side x.price p) ++
        (levelEntry pf (ordersAt xs p ++ (ms ++ ordersAt ys p)) ++
          depthOf pf ((xs ++ ys).filter fun x => better side p x.price)) := by
  have hself : better side p p = false := better_irrefl side p
  have hbetter : ms.filter (fun x => better side x.price p) = [] := by
    rw [List.filter_eq_nil_iff]
    intro m hm
    simp [hms m hm, hself]
  have hworse : ms.filter (fun x => better side p x.price) = [] := by
    rw [List.filter_eq_nil_iff]
    intro m hm
    simp [hms m hm, hself]
  have hat : ordersAt ms p = ms := by
    rw [ordersAt, List.filter_eq_self]
    intro m hm
    simpa using hms m hm
  rw [h.depth_split pf p, ordersAt_append, ordersAt_append, hat]
  simp only [List.filter_append, hbetter, hworse, List.nil_append]

/-- Taking an order off its level. -/
theorem levelEntry_less (pf : Platform) (xs ys : List Order) (o : Order) :
    levelEntry pf (ordersAt xs o.price ++ ordersAt ys o.price) =
      (levelView pf (ordersAt (xs ++ o :: ys) o.price)).less pf o := by
  have hne : ordersAt (xs ++ o :: ys) o.price ≠ [] := by rw [ordersAt_middle]; simp
  have hprice := levelView_price pf hne
  rw [← ordersAt_append]
  unfold levelEntry PriceLevelView.less
  rw [hprice]
  have hcount : (levelView pf (ordersAt (xs ++ o :: ys) o.price)).orderCount =
      (ordersAt (xs ++ ys) o.price).length + 1 := by
    rw [ordersAt_middle, ordersAt_append]
    simp [levelView]
    omega
  have htotal : pf.wrap ((levelView pf (ordersAt (xs ++ o :: ys) o.price)).totalQuantity -
      o.remainingQuantity) = pf.wrap (quantityOf (ordersAt (xs ++ ys) o.price)) := by
    rw [ordersAt_middle, ordersAt_append]
    show pf.wrap (pf.wrap (quantityOf _) - _) = _
    rw [sub_eq_add_neg, pf.wrap_add, quantityOf_append, quantityOf_append, quantityOf_cons]
    congr 1
    omega
  by_cases hnil : ordersAt (xs ++ ys) o.price = []
  · rw [if_pos hnil, if_pos (by rw [hcount, hnil]; rfl)]
  · rw [if_neg hnil, if_neg, hcount, htotal, Nat.add_sub_cancel]
    · have hprice' := levelView_price pf hnil
      conv_lhs => rw [show levelView pf (ordersAt (xs ++ ys) o.price) =
        ⟨(levelView pf (ordersAt (xs ++ ys) o.price)).price, _, _⟩ from rfl, hprice']
    · rw [hcount]
      have := List.length_pos_iff.mpr hnil
      omega

/-- **The depth of a side without one of its orders.** -/
theorem Priority.depth_without (h : Priority side (xs ++ o :: ys)) (pf : Platform) :
    ∃ before level after, level.price = o.price ∧
      depthOf pf (xs ++ o :: ys) = before ++ level :: after ∧
      depthOf pf (xs ++ ys) = before ++ (level.less pf o ++ after) := by
  have hne : ordersAt (xs ++ o :: ys) o.price ≠ [] := by rw [ordersAt_middle]; simp
  have hrest : Priority side (xs ++ ([] ++ ys)) := h.sublist (by simp)
  have hwith : Priority side (xs ++ ([o] ++ ys)) := h
  have hold := hwith.depth_around (p := o.price) (by simp) pf
  have hnew := hrest.depth_around (p := o.price) (by simp) pf
  rw [List.singleton_append, List.singleton_append, ← ordersAt_middle, levelEntry,
    if_neg hne] at hold
  rw [List.nil_append, List.nil_append, levelEntry_less] at hnew
  exact ⟨_, _, _, levelView_price pf hne, hold, hnew⟩

end one_side

/-! ## Section 2: Cancelling on the reference book -/

namespace RefBook

variable {r : RefBook}

/-- Removing an id that no order has. -/
theorem remove_absent {id : OrderId} (h : ∀ o ∈ r.all, o.id ≠ id) : r.remove id = r := by
  have horders : (r.remove id).orders = r.orders := by
    funext side
    show (r.orders side).filter _ = _
    rw [List.filter_eq_self]
    intro o ho
    simpa using h o (mem_all.mpr ⟨side, ho⟩)
  exact RefBook.mk.injEq .. ▸ ⟨rfl, rfl, rfl, horders⟩

/-- Whether an order with the id rests. -/
def rests (r : RefBook) (id : OrderId) : Bool := r.all.any fun o => o.id = id

theorem rests_iff {id : OrderId} : r.rests id = true ↔ ∃ side, ∃ o ∈ r.orders side, o.id = id := by
  unfold rests
  rw [List.any_eq_true]
  constructor
  · rintro ⟨o, ho, hid⟩
    obtain ⟨side, ho⟩ := mem_all.mp ho
    exact ⟨side, o, ho, by simpa using hid⟩
  · rintro ⟨side, o, ho, hid⟩
    exact ⟨o, mem_all.mpr ⟨side, ho⟩, by simpa using hid⟩

/-- With real ids only, `cancel_order` says whether the order rests, and takes
    its id out. -/
theorem Sound.cancelOrder_eq (h : r.Sound True) (id : OrderId) :
    r.cancelOrder id = (r.rests id, r.remove id) := by
  unfold cancelOrder
  cases hfind : r.find id with
  | none =>
    have habsent : ∀ o ∈ r.all, o.id ≠ id := by
      rcases find_eq_none.mp hfind with hz | habsent
      · intro o ho
        rw [hz]
        exact (h.ids trivial).2 o ho
      · exact habsent
    have hrests : r.rests id = false := by
      rw [rests, List.any_eq_false]
      intro o ho
      simpa using habsent o ho
    rw [hrests, remove_absent habsent]
  | some o =>
    obtain ⟨-, ho, hoid⟩ := find_some hfind
    have hrests : r.rests id = true := by
      rw [rests, List.any_eq_true]
      exact ⟨o, ho, by simpa using hoid⟩
    rw [hrests]

theorem remove_comm (r : RefBook) (a b : OrderId) :
    (r.remove a).remove b = (r.remove b).remove a := by
  unfold remove
  simp only [List.filter_filter, Bool.and_comm]

theorem rests_remove {a b : OrderId} (hne : a ≠ b) : (r.remove a).rests b = r.rests b := by
  rw [Bool.eq_iff_iff, rests, rests, List.any_eq_true, List.any_eq_true]
  constructor
  · rintro ⟨o, ho, hid⟩
    exact ⟨o, (mem_remove.mp ho).1, hid⟩
  · rintro ⟨o, ho, hid⟩
    have hid' : o.id = b := by simpa using hid
    exact ⟨o, mem_remove.mpr ⟨ho, fun hc => hne (hc.symm.trans hid')⟩, hid⟩

/-- Taking out an order that has just joined. -/
theorem rest_remove {order : Order} (hfresh : ∀ o ∈ r.all, o.id ≠ order.id) :
    (r.rest order).remove order.id = r := by
  have horders : ((r.rest order).remove order.id).orders = r.orders := by
    funext side
    show ((r.rest order).orders side).filter _ = _
    have hkeep : (r.orders side).filter (fun o => o.id ≠ order.id) = r.orders side := by
      rw [List.filter_eq_self]
      intro o ho
      simpa using hfresh o (mem_all.mpr ⟨side, ho⟩)
    rcases order.side.eq_or_opposite side with rfl | rfl
    · rw [rest, setOrders_same, place, List.filter_append,
        List.filter_cons_of_neg (by simp), ← List.filter_append, List.takeWhile_append_dropWhile]
      exact hkeep
    · rw [rest, setOrders_of_ne (Side.opposite_ne order.side)]
      exact hkeep
  exact RefBook.mk.injEq .. ▸ ⟨rfl, rfl, rfl, horders⟩

end RefBook

/-! ## Section 3: Cancelling on the books -/

/-- `b'` is `b` without the order `o`. -/
structure OrderBook.Without {S : Type} [LevelStore S] [LawfulLevelStore S] (pf : Platform)
    (b : OrderBook S) (o : Order) (b' : OrderBook S) : Prop where
  /-- The other orders of its side are as they were, in the same order. -/
  orders : ∃ ahead behind, b.resting o.side = ahead ++ o :: behind ∧
    b'.resting o.side = ahead ++ behind
  opposite : b'.resting o.side.opposite = b.resting o.side.opposite
  /-- Its level has lost its quantity and one order, or is gone; the other
      levels are as they were. -/
  levels : ∃ before level after, level.price = o.price ∧
    (∀ n, depth o.side (b.levels o.side) n = some ((before ++ level :: after).take n)) ∧
    (∀ n, depth o.side (b'.levels o.side) n =
      some ((before ++ (level.less pf o ++ after)).take n))
  opposite_levels : ∀ n, depth o.side.opposite (b'.levels o.side.opposite) n =
    depth o.side.opposite (b.levels o.side.opposite) n
  bestBid : ∀ p, b'.bestBid = some p ↔ IsGreatest (prices (b'.resting .buy)) p
  bestAsk : ∀ p, b'.bestAsk = some p ↔ IsLeast (prices (b'.resting .sell)) p
  count : b.orderCount = b'.orderCount + 1

section books

variable {S : Type} [LevelStore S] [LawfulLevelStore S] {pf : Platform} {nz : Prop}
  {b b' : OrderBook S} {qs : Side → List (List Nat)}

/-- The side of an order found by its id, split around it. -/
theorem BookRep.find_split (h : BookRep pf nz b qs) {id : OrderId} {o : Order}
    (hfind : b.reference.find id = some o) :
    ∃ xs ys, b.reference.orders o.side = xs ++ o :: ys ∧ (∀ x ∈ xs ++ ys, x.id ≠ id) ∧
      ∀ x ∈ b.reference.orders o.side.opposite, x.id ≠ id := by
  rw [(h.find_eq id).2] at hfind
  obtain ⟨i, hl, rfl⟩ := Option.map_eq_some_iff.mp hfind
  obtain ⟨-, hlive, -⟩ := (h.store.lookup id i).mp hl
  obtain ⟨xs, ys, hsplit⟩ := List.append_of_mem (h.mem_side hlive)
  exact ⟨_, _, h.resting_split hl hsplit⟩

/-- A valid book that stands for the removal of an order is without it. -/
theorem OrderBook.Valid.without (h : b.Valid pf True) (h' : b'.Valid pf True) {id : OrderId}
    {o : Order} (hfind : b.reference.find id = some o)
    (href : b'.reference = b.reference.remove id) : b.Without pf o b' := by
  have hcount := congrArg Observation.orderCount h.observe_eq
  have hcount' := congrArg Observation.orderCount h'.observe_eq
  obtain ⟨qs, h⟩ := h
  obtain ⟨qs', h'⟩ := h'
  obtain ⟨xs, ys, hside, hne, hopp⟩ := h.find_split hfind
  rw [RefBook.remove_eq hside (RefBook.find_some hfind).2.2 hne hopp] at href
  have hown : b'.resting o.side = xs ++ ys := by
    rw [← OrderBook.reference_orders, href, RefBook.setOrders_same]
  have hother : b'.resting o.side.opposite = b.resting o.side.opposite := by
    rw [← OrderBook.reference_orders, href, RefBook.setOrders_of_ne (Side.opposite_ne o.side)]
    rfl
  have hprio := h.sound.priority o.side
  rw [hside] at hprio
  obtain ⟨before, level, after, hprice, hdepth, hdepth'⟩ := hprio.depth_without pf
  refine ⟨⟨xs, ys, hside, hown⟩, hother, ⟨before, level, after, hprice, ?_, ?_⟩, ?_,
    h'.bestBid_iff, h'.bestAsk_iff, ?_⟩
  · intro n
    rw [h.depth_eq, ← OrderBook.reference_orders, hside, hdepth]
  · intro n
    rw [h'.depth_eq, hown, hdepth']
  · intro n
    rw [h'.depth_eq, h.depth_eq, hother]
  · show b.observe.orderCount = b'.observe.orderCount + 1
    rw [hcount, hcount']
    show b.reference.all.length = b'.reference.all.length + 1
    -- the two sides together are one order shorter
    have hsides : ∀ r : RefBook, r.all.length =
        (r.orders o.side).length + (r.orders o.side.opposite).length := by
      intro r
      rw [RefBook.all, List.length_append]
      cases o.side with
      | buy => rfl
      | sell => exact Nat.add_comm _ _
    rw [hsides, hsides, hside]
    show _ = (b'.resting o.side).length + (b'.resting o.side.opposite).length + 1
    rw [hown, hother]
    simp
    omega

/-- A book answers by its resting orders alone. -/
theorem OrderBook.Valid.same_answers (h : b.Valid pf True) (h' : b'.Valid pf True)
    (href : b'.reference = b.reference) : b'.resting = b.resting ∧ b'.observe = b.observe := by
  refine ⟨congrArg RefBook.orders href, ?_⟩
  rw [h'.observe_eq, h.observe_eq, href]

/-- `cancel_order` on a valid book with real ids. -/
theorem OrderBook.Valid.cancel_spec (h : b.Valid pf True) (id : OrderId) :
    ∃ b', b.cancelOrder pf id = some (b.reference.rests id, b') ∧ b'.Valid pf True ∧
      b'.reference = b.reference.remove id := by
  have hsound := h.sound
  obtain ⟨qs, h⟩ := h
  obtain ⟨b', qs', hrun, hrep, href⟩ := h.cancelOrder_spec id
  rw [hsound.cancelOrder_eq] at hrun href
  exact ⟨b', hrun, ⟨qs', hrep⟩, href⟩

/-- A Limit order that crosses nothing rests as it is. -/
theorem OrderBook.Valid.rest_spec (h : b.Valid pf True) {order : Order} (now : Clock)
    (htype : order.type = .limit) (htif : order.timeInForce = .gtc)
    (hid : order.id ≠ kInvalidOrderId) (hcross : b.crosses order = false)
    (hok : b.rejectReason order = some none) :
    ∃ out, b.addOrder pf order now = some out ∧ out.book.Valid pf True ∧ out.trades = [] ∧
      out.book.reference = b.reference.rest order.opened := by
  obtain ⟨qs, h⟩ := h
  rw [h.rejectReason_eq, Option.some.injEq] at hok
  obtain ⟨out, hrun, href⟩ := h.addOrder_spec order now fun _ _ _ => hid
  have hqty := (RefBook.rejectReason_eq_none.mp hok).1
  have hfok : b.reference.fokKilled pf order = false := by simp [RefBook.fokKilled, htif]
  rw [RefBook.addOrder_accepted hok hfok] at href
  -- nothing is within reach, so matching changes nothing
  obtain ⟨hnone, hall⟩ := h.reachable_of_not_crosses htype hcross
  have hmatched : b.reference.matched order.opened = ⟨[], [], [], order.quantity, false⟩ := by
    rw [RefBook.matched_opened, OrderBook.reference_orders, hnone]
    rfl
  have hafter : b.reference.afterMatch order.opened = b.reference := by
    show b.reference.setOrders order.side.opposite ((b.reference.matched order.opened).rest ++
      beyond order (b.resting order.side.opposite)) = b.reference
    rw [hmatched, hall]
    exact RefBook.setOrders_self _ _
  have hrests : order.opened.restsInBook = true := by
    simp [Order.restsInBook, Order.opened, htype, htif]
  refine ⟨out, hrun, href.valid, ?_, ?_⟩
  · rw [href.trades, RefBook.execute_trades, hmatched]
    rfl
  · rw [href.book, RefBook.execute_book _ _ _ (Int.le_of_lt hqty), hmatched, if_pos]
    · rw [hafter]
      rfl
    · exact ⟨hqty, by simp, hrests⟩

/-- A cancel that finds nothing leaves the very same book. -/
theorem OrderBook.Valid.cancel_absent (h : b.Valid pf True) {id : OrderId}
    (habsent : b.reference.rests id = false) : b.cancelOrder pf id = some (false, b) := by
  obtain ⟨qs, h⟩ := h
  obtain ⟨hfind, href⟩ := h.find_eq id
  cases hl : b.idIndex.lookup id with
  | none => simp [OrderBook.cancelOrder, hfind, hl]
  | some i =>
    rw [hl, Option.map_some] at href
    obtain ⟨-, ho, hoid⟩ := RefBook.find_some href
    rw [RefBook.rests, List.any_eq_false] at habsent
    exact absurd (by simpa using hoid) (habsent _ ho)

end books

/-! ## Section 4: Every reachable book -/

/-- **Cancel removes exactly one order.**  In every book reached with real ids a
    cancel returns whether the order rests; then it takes out that order and
    nothing else, otherwise it changes nothing.  So resting an order that
    crosses nothing and cancelling it leaves the resting orders and all queries
    as they were, and cancels of two ids commute.  This is said of the source
    while fewer than `2 ^ 32 - 1` orders rest. -/
theorem cancel_removes_exactly_one (pf : Platform) (k : Approach) (b : k.Book)
    (hb : k.Reachable pf Call.NonZero b) :
    (∀ id, ∃ cancelled b', b.cancelOrder pf id = some (cancelled, b') ∧
      (cancelled = true ↔ ∃ side, ∃ o ∈ b.resting side, o.id = id) ∧
      (cancelled = true → ∃ o, o.id = id ∧ b.Without pf o b') ∧
      (cancelled = false → b' = b)) ∧
    (∀ order now, order.type = .limit → order.timeInForce = .gtc → order.id ≠ kInvalidOrderId →
      b.crosses order = false → b.rejectReason order = some none →
      ∃ out b', b.addOrder pf order now = some out ∧ out.trades = [] ∧
        out.book.cancelOrder pf order.id = some (true, b') ∧
        b'.resting = b.resting ∧ b'.observe = b.observe) ∧
    (∀ id id', id ≠ id' → ∃ flag flag' b₁ b₁₂ b₂ b₂₁,
      b.cancelOrder pf id = some (flag, b₁) ∧ b₁.cancelOrder pf id' = some (flag', b₁₂) ∧
      b.cancelOrder pf id' = some (flag', b₂) ∧ b₂.cancelOrder pf id = some (flag, b₂₁) ∧
      b₁₂.resting = b₂₁.resting ∧ b₁₂.observe = b₂₁.observe) := by
  have hvalid : b.Valid pf True := hb.valid fun _ hc _ => hc
  refine ⟨?_, ?_, ?_⟩
  · intro id
    obtain ⟨b', hrun, hvalid', href⟩ := hvalid.cancel_spec id
    refine ⟨_, b', hrun, RefBook.rests_iff, ?_, ?_⟩
    · intro hrests
      -- the order that rests is the one the reference finds
      obtain ⟨side, o, ho, hoid⟩ := RefBook.rests_iff.mp hrests
      have hall := RefBook.mem_all.mpr ⟨side, ho⟩
      cases hfind : b.reference.find id with
      | some x => exact ⟨x, (RefBook.find_some hfind).2.2, hvalid.without hvalid' hfind href⟩
      | none =>
        rcases RefBook.find_eq_none.mp hfind with hz | hno
        · exact ((hvalid.sound.ids trivial).2 o hall (hoid.trans hz)).elim
        · exact (hno o hall hoid).elim
    · intro habsent
      rw [hvalid.cancel_absent habsent] at hrun
      exact (Prod.mk.inj (Option.some.inj hrun)).2.symm
  · intro order now htype htif hid hcross hok
    obtain ⟨out, hadd, hvalid₁, htrades, href₁⟩ :=
      hvalid.rest_spec now htype htif hid hcross hok
    obtain ⟨b', hcancel, hvalid', href'⟩ := hvalid₁.cancel_spec order.id
    have hfresh : ∀ o ∈ b.reference.all, o.id ≠ order.id := by
      obtain ⟨qs, hrep⟩ := hvalid
      rw [hrep.rejectReason_eq, Option.some.injEq] at hok
      rcases RefBook.find_eq_none.mp (RefBook.rejectReason_eq_none.mp hok).2.2 with hz | hno
      · exact (hid hz).elim
      · exact hno
    have hrests : (b.reference.rest order.opened).rests order.id = true :=
      RefBook.rests_iff.mpr ⟨order.side, order.opened, RefBook.mem_rest.mpr (.inl ⟨rfl, rfl⟩), rfl⟩
    have hundone : (b.reference.rest order.opened).remove order.id = b.reference :=
      RefBook.rest_remove hfresh
    rw [href₁, hrests] at hcancel
    rw [href₁, hundone] at href'
    exact ⟨out, b', hadd, htrades, hcancel, hvalid.same_answers hvalid' href'⟩
  · intro id id' hne
    obtain ⟨b₁, hrun₁, hvalid₁, href₁⟩ := hvalid.cancel_spec id
    obtain ⟨b₂, hrun₂, hvalid₂, href₂⟩ := hvalid.cancel_spec id'
    obtain ⟨b₁₂, hrun₁₂, hvalid₁₂, href₁₂⟩ := hvalid₁.cancel_spec id'
    obtain ⟨b₂₁, hrun₂₁, hvalid₂₁, href₂₁⟩ := hvalid₂.cancel_spec id
    rw [href₁, RefBook.rests_remove hne] at hrun₁₂
    rw [href₂, RefBook.rests_remove hne.symm] at hrun₂₁
    refine ⟨_, _, b₁, b₁₂, b₂, b₂₁, hrun₁, hrun₁₂, hrun₂, hrun₂₁, ?_⟩
    apply hvalid₂₁.same_answers hvalid₁₂
    rw [href₁₂, href₂₁, href₁, href₂, RefBook.remove_comm]

/-- The order in the middle of a queue of three. -/
theorem cancel_removes_exactly_one_middle :
    ∃ b : Approach.array.Book, Approach.array.Reachable .int64 Call.NonZero b ∧
      b.resting .buy = [⟨1, 100, 5, 5, 0, 1, 7, .buy, .limit, .gtc⟩,
        ⟨2, 100, 4, 4, 0, 1, 7, .buy, .limit, .gtc⟩,
        ⟨3, 100, 7, 7, 0, 1, 8, .buy, .limit, .gtc⟩] ∧
      ∃ b', b.cancelOrder .int64 2 = some (true, b') ∧
        b.Without .int64 ⟨2, 100, 4, 4, 0, 1, 7, .buy, .limit, .gtc⟩ b' := by
  obtain ⟨replies, b, hrun, hrest⟩ := Approach.session_ends
    (P := fun b => b.resting .buy = [⟨1, 100, 5, 5, 0, 1, 7, .buy, .limit, .gtc⟩,
      ⟨2, 100, 4, 4, 0, 1, 7, .buy, .limit, .gtc⟩, ⟨3, 100, 7, 7, 0, 1, 8, .buy, .limit, .gtc⟩] ∧
      b.resting .sell = [])
    (show ((Approach.array.session .int64 1 90 110 4 .none
      [(.add ⟨1, 100, 5, 0, 0, 1, 7, .buy, .limit, .gtc⟩, fun _ => 0),
       (.add ⟨2, 100, 4, 0, 0, 1, 7, .buy, .limit, .gtc⟩, fun _ => 0),
       (.add ⟨3, 100, 7, 0, 0, 1, 8, .buy, .limit, .gtc⟩, fun _ => 0)]).any _) = true by
        decide +kernel)
  have hb : Approach.array.Reachable .int64 Call.NonZero b :=
    Approach.reachable_of_session (by decide) hrun
  refine ⟨b, hb, hrest.1, ?_⟩
  obtain ⟨cancelled, b', hcancel, hiff, hwithout, -⟩ :=
    (cancel_removes_exactly_one .int64 .array b hb).1 2
  have hflag : cancelled = true :=
    hiff.mpr ⟨.buy, ⟨2, 100, 4, 4, 0, 1, 7, .buy, .limit, .gtc⟩, by rw [hrest.1]; simp, rfl⟩
  obtain ⟨o, hoid, hwithout⟩ := hwithout hflag
  rw [hflag] at hcancel
  -- of the resting orders only one has the id
  have ho : o = ⟨2, 100, 4, 4, 0, 1, 7, .buy, .limit, .gtc⟩ := by
    obtain ⟨ahead, behind, hside, -⟩ := hwithout.orders
    have hmem : o ∈ b.resting o.side := by rw [hside]; simp
    cases hs : o.side with
    | buy =>
      rw [hs, hrest.1] at hmem
      simp only [List.mem_cons, List.not_mem_nil, or_false] at hmem
      rcases hmem with rfl | rfl | rfl
      · cases hoid
      · rfl
      · cases hoid
    | sell =>
      rw [hs, hrest.2] at hmem
      cases hmem
  exact ⟨b', hcancel, ho ▸ hwithout⟩

end LightningLob
