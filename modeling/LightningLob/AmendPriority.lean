import LightningLob.AmendRejection
import LightningLob.Cancellation

/-! # What an amend does to time priority

    An amend that keeps the price and does not raise the quantity changes one
    order in place.  Every other amend takes the order out and adds its
    replacement: if that rests, it is behind every order of its price, and the
    other orders are as they were relative to each other. -/

namespace LightningLob

open LevelStore

/-! ## Section 1: Survivors of a match -/

/-- `after` are orders of `before` in the same relative order, each with at
    most quantity taken off. -/
def Survive (before after : List Order) : Prop :=
  ∃ kept, kept.Sublist before ∧ List.Forall₂ Leaves kept after

theorem Survive.refl (os : List Order) : Survive os os :=
  ⟨os, .refl os, List.forall₂_same.mpr fun o _ => .refl o⟩

theorem Survive.cons {before after : List Order} (h : Survive before after) (o : Order) :
    Survive (o :: before) after := by
  obtain ⟨kept, hsub, hleaves⟩ := h
  exact ⟨kept, hsub.cons o, hleaves⟩

theorem Survive.append {before before' after after' : List Order} (h : Survive before after)
    (h' : Survive before' after') : Survive (before ++ before') (after ++ after') := by
  obtain ⟨kept, hsub, hleaves⟩ := h
  obtain ⟨kept', hsub', hleaves'⟩ := h'
  exact ⟨kept ++ kept', hsub.append hsub', List.rel_append hleaves hleaves'⟩

/-- Matching leaves survivors. -/
theorem Folds.survive {policy : SelfTradePrevention} {taker : Order} {rem : Int}
    {makers : List Order} {r : Fold} (h : Folds policy taker rem makers r) :
    Survive makers r.rest := by
  induction h with
  | nil => exact .refl _
  | spent | stop => exact .refl _
  | skip _ _ _ _ ih => exact ih.cons _
  | both => exact (Survive.refl _).cons _
  | fill _ _ _ _ ih => exact ih.cons _
  | @part rem m ms hrem _ hlt =>
    refine ⟨m :: ms, .refl _, .cons ⟨rfl, fun _ => ?_, ?_⟩ ?_⟩
    · simpa using hlt
    · exact Int.sub_le_self _ (Int.le_of_lt hrem)
    · exact List.forall₂_same.mpr fun o _ => .refl o

/-- So the side an incoming order matches against keeps its order. -/
theorem RefBook.Sound.survive {nz : Prop} {r : RefBook} (h : r.Sound nz) (order : Order) :
    Survive (r.orders order.side.opposite)
      ((r.matched order).rest ++ beyond order (r.orders order.side.opposite)) := by
  have hsplit : reachable order (r.orders order.side.opposite) ++
      beyond order (r.orders order.side.opposite) = r.orders order.side.opposite :=
    Priority.split (h.priority order.side.opposite)
  conv => arg 1; rw [← hsplit]
  exact (fold_folds _ _ _ _).survive.append (.refl _)

/-! ## Section 2: The two kinds of amend -/

/-- A depth entry with quantity taken off its total. -/
def PriceLevelView.debit (pf : Platform) (level : PriceLevelView) (quantity : Int) :
    PriceLevelView :=
  { level with totalQuantity := pf.wrap (level.totalQuantity - quantity) }

/-- `b'` is `b` with the open quantity of `o` set to `quantity`, in place. -/
structure OrderBook.Resized {S : Type} [LevelStore S] [LawfulLevelStore S] (pf : Platform)
    (b : OrderBook S) (o : Order) (quantity : Int) (b' : OrderBook S) : Prop where
  /-- No queue changes its order, and no other order changes. -/
  orders : ∃ ahead behind, b.resting o.side = ahead ++ o :: behind ∧
    b'.reference = b.reference.setOrders o.side
      (ahead ++ { o with remainingQuantity := quantity } :: behind)
  /-- The total of the order's level follows it; no other level changes. -/
  levels : ∃ before level after, level.price = o.price ∧
    (∀ n, depth o.side (b.levels o.side) n = some ((before ++ level :: after).take n)) ∧
    (∀ n, depth o.side (b'.levels o.side) n =
      some ((before ++ level.debit pf (o.remainingQuantity - quantity) :: after).take n))
  opposite_levels : ∀ n, depth o.side.opposite (b'.levels o.side.opposite) n =
    depth o.side.opposite (b.levels o.side.opposite) n
  count : b'.orderCount = b.orderCount

/-- In `b'` the order `o` of `b` has left its place; if it rests, it is behind
    all orders of `price` as `o'`. -/
structure OrderBook.Requeued {S : Type} [LevelStore S] [LawfulLevelStore S] (b : OrderBook S)
    (o : Order) (price : Int) (b' : OrderBook S) : Prop where
  own : ∃ ahead behind, b.resting o.side = ahead ++ o :: behind ∧
    (∀ x ∈ ahead ++ behind, x.id ≠ o.id) ∧
    (b'.resting o.side = ahead ++ behind ∨
      ∃ o' before after, ahead ++ behind = before ++ after ∧
        b'.resting o.side = before ++ o' :: after ∧
        o'.id = o.id ∧ o'.side = o.side ∧ o'.participantId = o.participantId ∧
        o'.price = price ∧ (∀ x ∈ before, better o.side price x.price = false) ∧
        ∀ x ∈ after, better o.side price x.price = true)
  opposite : Survive (b.resting o.side.opposite) (b'.resting o.side.opposite)

section amending

variable {pf : Platform} {side : Side} {xs ys : List Order} {o : Order}

/-- The depth of a side with one of its orders resized. -/
theorem Priority.depth_resized (h : Priority side (xs ++ o :: ys)) (pf : Platform)
    (quantity : Int) :
    ∃ before level after, level.price = o.price ∧
      depthOf pf (xs ++ o :: ys) = before ++ level :: after ∧
      depthOf pf (xs ++ { o with remainingQuantity := quantity } :: ys) =
        before ++ level.debit pf (o.remainingQuantity - quantity) :: after := by
  have hne : ordersAt (xs ++ o :: ys) o.price ≠ [] := by rw [ordersAt_middle]; simp
  have hold : Priority side (xs ++ ([o] ++ ys)) := h
  have hnew : Priority side (xs ++ ([{ o with remainingQuantity := quantity }] ++ ys)) := by
    -- priority only looks at prices
    have hmap : ∀ os : List Order, Priority side os ↔
        (os.map Order.price).Pairwise fun p q => better side q p = false := by
      intro os
      rw [List.pairwise_map]
      exact Iff.rfl
    rw [hmap] at hold ⊢
    simpa using hold
  have hold := hold.depth_around (p := o.price) (by simp) pf
  have hnew := hnew.depth_around (p := o.price) (by simp) pf
  rw [List.singleton_append, List.singleton_append, ← ordersAt_middle, levelEntry,
    if_neg hne] at hold
  rw [List.singleton_append, List.singleton_append, levelEntry, if_neg (by simp)] at hnew
  refine ⟨_, _, _, levelView_price pf hne, hold, hnew.trans ?_⟩
  have hentry : levelView pf (ordersAt xs o.price ++
      { o with remainingQuantity := quantity } :: ordersAt ys o.price) =
      (levelView pf (ordersAt (xs ++ o :: ys) o.price)).debit pf
        (o.remainingQuantity - quantity) := by
    rw [ordersAt_middle]
    have hprice : ((ordersAt xs o.price ++ { o with remainingQuantity := quantity } ::
        ordersAt ys o.price).head?.map Order.price) =
        ((ordersAt xs o.price ++ o :: ordersAt ys o.price).head?.map Order.price) := by
      cases ordersAt xs o.price <;> rfl
    have htotal : pf.wrap (quantityOf (ordersAt xs o.price ++
        { o with remainingQuantity := quantity } :: ordersAt ys o.price)) =
        pf.wrap (pf.wrap (quantityOf (ordersAt xs o.price ++ o :: ordersAt ys o.price)) -
          (o.remainingQuantity - quantity)) := by
      rw [sub_eq_add_neg, pf.wrap_add, quantityOf_append, quantityOf_append, quantityOf_cons,
        quantityOf_cons]
      congr 1
      show quantityOf _ + (quantity + quantityOf _) = _
      omega
    unfold levelView PriceLevelView.debit
    rw [hprice, htotal]
    simp
  rw [hentry]
  rfl

/-- An order that joins its side is behind all of its price. -/
theorem Priority.place_behind {os : List Order} (h : Priority o.side os) :
    ∃ before after, os = before ++ after ∧ place o os = before ++ o :: after ∧
      (∀ x ∈ before, better o.side o.price x.price = false) ∧
      ∀ x ∈ after, better o.side o.price x.price = true := by
  have hsplit := h.split_at o.price
  rw [← List.append_assoc] at hsplit
  have hbefore : ∀ x ∈ os.filter (fun x => better o.side x.price o.price) ++ ordersAt os o.price,
      better o.side o.price x.price = false := by
    intro x hx
    rcases List.mem_append.mp hx with hx | hx
    · exact better_asymm (List.mem_filter.mp hx).2
    · have hp : x.price = o.price := by simpa using (List.mem_filter.mp hx).2
      rw [hp]
      exact better_irrefl o.side o.price
  have hafter : ∀ x ∈ os.filter fun x => better o.side o.price x.price,
      better o.side o.price x.price = true := by
    intro x hx
    exact (List.mem_filter.mp hx).2
  refine ⟨_, _, hsplit.symm, ?_, hbefore, hafter⟩
  conv_lhs => rw [← hsplit]
  exact RefBook.place_eq hbefore hafter

end amending

/-! ## Section 3: Amending on the books -/

section books

variable {S : Type} [LevelStore S] [LawfulLevelStore S] {pf : Platform} {nz : Prop}
  {b b' : OrderBook S} {qs : Side → List (List Nat)} {o : Order} {newQuantity : Int}
  {newPrice : Option Int}

/-- An order with a real id is found by it. -/
theorem BookRep.find_of_mem (h : BookRep pf nz b qs) {side : Side} (ho : o ∈ b.resting side)
    (hid : o.id ≠ kInvalidOrderId) : b.reference.find o.id = some o := by
  have hall : o ∈ b.reference.all := RefBook.mem_all.mpr ⟨side, ho⟩
  cases hfind : b.reference.find o.id with
  | none =>
    rcases RefBook.find_eq_none.mp hfind with hz | hno
    · exact (hid hz).elim
    · exact (hno o hall rfl).elim
  | some x =>
    -- the id is in one live slot only
    obtain ⟨-, hx, hxid⟩ := RefBook.find_some hfind
    rw [h.all_eq] at hall hx
    obtain ⟨i, hi, rfl⟩ := List.mem_map.mp hall
    obtain ⟨j, hj, rfl⟩ := List.mem_map.mp hx
    rw [h.store.id_unique hi hj hid hxid]

/-- The amends that keep time priority. -/
def Order.KeepsPriority (o : Order) (newQuantity : Int) (newPrice : Option Int) : Prop :=
  newPrice.getD o.price = o.price ∧ newQuantity ≤ o.remainingQuantity

instance (o : Order) (newQuantity : Int) (newPrice : Option Int) :
    Decidable (o.KeepsPriority newQuantity newPrice) :=
  inferInstanceAs (Decidable (_ ∧ _))

theorem Order.keepsPriority_iff : o.KeepsPriority newQuantity newPrice ↔
    (¬ (newPrice.any fun p => p ≠ o.price) = true) ∧ ¬ newQuantity > o.remainingQuantity := by
  unfold Order.KeepsPriority
  cases newPrice <;> simp

/-- An amend that keeps priority takes the size-down branch. -/
theorem BookRep.amendOrder_inPlace (h : BookRep pf nz b qs) (hfind : b.reference.find o.id = some o)
    (hq : 0 < newQuantity) (hr : ∀ p ∈ newPrice, b.inRange p = true)
    (hkeep : o.KeepsPriority newQuantity newPrice) (now : Clock) :
    ∃ i, b.amendOrder pf o.id newQuantity newPrice now =
      b.amendInPlace pf o.id i o newQuantity := by
  have hrange := RefBook.newPrice_in_range hr
  obtain ⟨hrun, href⟩ := h.find_eq o.id
  rw [href] at hfind
  obtain ⟨i, hl, hoi⟩ := Option.map_eq_some_iff.mp hfind
  obtain ⟨-, hlive, -⟩ := (h.store.lookup o.id i).mp hl
  refine ⟨i, ?_⟩
  simp only [OrderBook.amendOrder, hrun, hl, Option.bind_eq_bind, Option.bind_some,
    if_neg (Int.not_le.mpr hq), if_neg hrange, OrderPool.get_eq (h.store.lt hlive), hoi,
    if_pos (Order.keepsPriority_iff.mp hkeep)]

omit [LawfulLevelStore S] in
/-- The size-down branch does not touch the id index. -/
theorem amendInPlace_idIndex {id : OrderId} {i : Nat} {out : Outcome S}
    (h : b.amendInPlace pf id i o newQuantity = some out) : out.book.idIndex = b.idIndex := by
  simp only [OrderBook.amendInPlace, Option.bind_eq_bind, Option.bind_eq_some_iff, Prod.exists,
    Option.pure_def, Option.some.injEq] at h
  obtain ⟨level, -, level', pool, -, levels, -, rfl⟩ := h
  cases o.side <;> rfl

/-- An order resized in place. -/
theorem BookRep.resized (h : BookRep pf nz b qs) (h' : b'.Valid pf nz)
    (hfind : b.reference.find o.id = some o) {quantity : Int}
    (href : b'.reference = b.reference.resize o.id quantity)
    (hcount : b'.orderCount = b.orderCount) : b.Resized pf o quantity b' := by
  obtain ⟨qs', h'⟩ := h'
  obtain ⟨xs, ys, hside, hne, hopp⟩ := h.find_split hfind
  rw [RefBook.resize_eq hside rfl hne hopp] at href
  have hown : b'.resting o.side = xs ++ { o with remainingQuantity := quantity } :: ys := by
    rw [← OrderBook.reference_orders, href, RefBook.setOrders_same]
  have hother : b'.resting o.side.opposite = b.resting o.side.opposite := by
    rw [← OrderBook.reference_orders, href, RefBook.setOrders_of_ne (Side.opposite_ne o.side)]
    rfl
  have hprio := h.sound.priority o.side
  rw [hside] at hprio
  obtain ⟨before, level, after, hprice, hdepth, hdepth'⟩ := hprio.depth_resized pf quantity
  refine ⟨⟨xs, ys, hside, href⟩, ⟨before, level, after, hprice, ?_, ?_⟩, ?_, hcount⟩
  · intro n
    rw [h.depth_eq, ← OrderBook.reference_orders, hside, hdepth]
  · intro n
    rw [h'.depth_eq, hown, hdepth']
  · intro n
    rw [h'.depth_eq, h.depth_eq, hother]

/-- Any other amend: the replacement goes through `add_order`. -/
theorem BookRep.amendOrder_replaces (h : BookRep pf nz b qs)
    (hfind : b.reference.find o.id = some o) (hq : 0 < newQuantity)
    (hp : ∀ p ∈ newPrice, 0 < p ∧ b.inRange p = true)
    (hkeep : ¬ o.KeepsPriority newQuantity newPrice) (now : Clock) :
    b.reference.amendOrder pf o.id newQuantity newPrice now =
      (b.reference.remove o.id).execute
        (OrderBook.replacement o newQuantity newPrice (now 0)) fun k => now (k + 1) := by
  have hrange : ¬ (newPrice.any fun p => ¬ b.reference.inRange p) = true :=
    RefBook.newPrice_in_range fun p hpr => (hp p hpr).2
  have hok : (b.reference.remove o.id).rejectReason
      (OrderBook.replacement o newQuantity newPrice (now 0)) = none := by
    by_contra hno
    obtain ⟨p, rfl, hle⟩ := (RefBook.replacement_rejected_iff h.sound hfind hq
      (fun p hpr => (hp p hpr).2) (now 0)).mp hno
    have := (hp p rfl).1
    omega
  -- a resting order is GTC, so the dry run is not made
  have hfok : (b.reference.remove o.id).fokKilled pf
      (OrderBook.replacement o newQuantity newPrice (now 0)) = false := by
    have hrests := (RefBook.find_placed h.sound hfind).rests
    rw [Order.restsInBook, decide_eq_true_eq] at hrests
    simp [RefBook.fokKilled, OrderBook.replacement, hrests.2]
  rw [Order.keepsPriority_iff] at hkeep
  simp only [RefBook.amendOrder, hfind, if_neg (Int.not_le.mpr hq), if_neg hrange, if_neg hkeep,
    RefBook.addOrder_accepted hok hfok]
  rfl

/-- The order has left its queue for the end of another. -/
theorem BookRep.requeued (h : BookRep pf nz b qs) (hfind : b.reference.find o.id = some o)
    (hq : 0 < newQuantity) {timestamp : Timestamp} {now : Clock}
    (href : b'.reference = ((b.reference.remove o.id).execute
      (OrderBook.replacement o newQuantity newPrice timestamp) now).book) :
    b.Requeued o (newPrice.getD o.price) b' := by
  obtain ⟨xs, ys, hside, hne, hopp⟩ := h.find_split hfind
  have hremove := RefBook.remove_eq hside rfl hne hopp
  have hsurvive := (h.sound.remove o.id).survive
    (OrderBook.replacement o newQuantity newPrice timestamp)
  have hown := RefBook.execute_own (b.reference.remove o.id)
    (OrderBook.replacement o newQuantity newPrice timestamp) now (Int.le_of_lt hq)
  have hother := RefBook.execute_opposite (b.reference.remove o.id)
    (OrderBook.replacement o newQuantity newPrice timestamp) now (Int.le_of_lt hq)
  rw [← href] at hown hother
  rw [← hother, hremove] at hsurvive
  rw [hremove] at hown
  refine ⟨⟨xs, ys, hside, hne, ?_⟩, ?_⟩
  · -- the replacement finds its own side without the order
    have hprio := h.sound.priority o.side
    rw [hside] at hprio
    have hrest : Priority o.side (xs ++ ys) := hprio.sublist (by simp)
    rw [show (OrderBook.replacement o newQuantity newPrice timestamp).side = o.side from rfl,
      RefBook.setOrders_same] at hown
    split at hown
    · obtain ⟨before, after, hsplit, hplace, hbefore, hafter⟩ := Priority.place_behind
        (o := { OrderBook.replacement o newQuantity newPrice timestamp with remainingQuantity :=
          ((b.reference.setOrders o.side (xs ++ ys)).matched
            (OrderBook.replacement o newQuantity newPrice timestamp)).remaining }) hrest
      exact .inr ⟨_, before, after, hsplit, hown.trans hplace, rfl, rfl, rfl, rfl, hbefore, hafter⟩
    · exact .inl hown
  · rw [show (OrderBook.replacement o newQuantity newPrice timestamp).side = o.side from rfl,
      RefBook.setOrders_of_ne (Side.opposite_ne o.side)] at hsurvive
    exact hsurvive

end books

/-! ## Section 4: Every reachable book -/

/-- **Amend priority rules.**  In every book reached, for every resting order
    with a real id: an amend that keeps the price and does not raise the open
    quantity emits no trade and resizes the order in place; after any other
    amend the order has left its place, and if it rests it is last at its new
    price, the other orders being as they were relative to each other.  This is
    said of the source while fewer than `2 ^ 32 - 1` orders rest. -/
theorem amend_priority_rules (pf : Platform) (k : Approach) (b : k.Book)
    (hb : k.Reachable pf (fun _ => True) b) (side : Side) (o : Order) (ho : o ∈ b.resting side)
    (hid : o.id ≠ kInvalidOrderId) (newQuantity : Int) (hq : 0 < newQuantity)
    (newPrice : Option Int) (hp : ∀ p ∈ newPrice, 0 < p ∧ b.inRange p = true) (now : Clock) :
    ∃ out, b.amendOrder pf o.id newQuantity newPrice now = some out ∧
      (newPrice.getD o.price = o.price ∧ newQuantity ≤ o.remainingQuantity →
        out.trades = [] ∧ b.Resized pf o newQuantity out.book) ∧
      (¬ (newPrice.getD o.price = o.price ∧ newQuantity ≤ o.remainingQuantity) →
        b.Requeued o (newPrice.getD o.price) out.book) := by
  obtain ⟨qs, hrep⟩ : b.Valid pf False := hb.valid fun _ _ hz => hz.elim
  have hfind := hrep.find_of_mem ho hid
  obtain ⟨out, hrun, href⟩ := hrep.amendOrder_spec o.id newQuantity newPrice now
  refine ⟨out, hrun, ?_, ?_⟩
  · intro hkeep
    have hrange : ∀ p ∈ newPrice, b.inRange p = true := fun p hpr => (hp p hpr).2
    obtain ⟨i, hinplace⟩ := hrep.amendOrder_inPlace hfind hq hrange hkeep now
    have hany : ¬ (newPrice.any fun p => ¬ b.reference.inRange p) = true :=
      RefBook.newPrice_in_range hrange
    have hresize : b.reference.amendOrder pf o.id newQuantity newPrice now =
        ⟨⟨o.id, .new, 0, newQuantity, .none⟩, [], b.reference.resize o.id newQuantity⟩ := by
      simp only [RefBook.amendOrder, hfind, if_neg (Int.not_le.mpr hq), if_neg hany,
        if_pos (Order.keepsPriority_iff.mp hkeep)]
    rw [hresize] at href
    refine ⟨href.trades, hrep.resized href.valid hfind href.book ?_⟩
    rw [hinplace] at hrun
    exact congrArg IdIndexMap.size (amendInPlace_idIndex hrun)
  · intro hkeep
    rw [hrep.amendOrder_replaces hfind hq hp hkeep] at href
    exact hrep.requeued hfind hq href.book

/-- The first of two bids at a price, made larger: it goes behind the second. -/
theorem amend_priority_rules_size_up :
    ∃ b : Approach.vector.Book, Approach.vector.Reachable .int64 (fun _ => True) b ∧
      b.resting .buy = [⟨1, 100, 4, 4, 0, 1, 7, .buy, .limit, .gtc⟩,
        ⟨2, 100, 3, 3, 0, 1, 8, .buy, .limit, .gtc⟩] ∧
      ∃ out, b.amendOrder .int64 1 20 none (fun _ => 9) = some out ∧
        b.Requeued ⟨1, 100, 4, 4, 0, 1, 7, .buy, .limit, .gtc⟩ 100 out.book := by
  obtain ⟨replies, b, hrun, hrest⟩ := Approach.session_ends
    (P := fun b => b.resting .buy = [⟨1, 100, 4, 4, 0, 1, 7, .buy, .limit, .gtc⟩,
      ⟨2, 100, 3, 3, 0, 1, 8, .buy, .limit, .gtc⟩])
    (show ((Approach.vector.session .int64 1 90 110 4 .none
      [(.add ⟨1, 100, 4, 0, 0, 1, 7, .buy, .limit, .gtc⟩, fun _ => 0),
       (.add ⟨2, 100, 3, 0, 0, 1, 8, .buy, .limit, .gtc⟩, fun _ => 0)]).any _) = true by
        decide +kernel)
  have hb : Approach.vector.Reachable .int64 (fun _ => True) b :=
    Approach.reachable_of_session (fun _ _ => trivial) hrun
  obtain ⟨out, hamend, -, hrequeued⟩ := amend_priority_rules .int64 .vector b hb .buy
    ⟨1, 100, 4, 4, 0, 1, 7, .buy, .limit, .gtc⟩ (by rw [hrest]; simp) (by decide) 20 (by decide)
    none (by simp) fun _ => 9
  exact ⟨b, hb, hrest, out, hamend, hrequeued (by decide)⟩

/-- An order without a real id rests, but an amend of it is refused as unknown
    and leaves it as it was. -/
theorem unnamed_order_not_amended :
    ∃ (b : Approach.array.Book) (o : Order) (out : Outcome Approach.array.Levels),
      Approach.array.Reachable .int64 (fun _ => True) b ∧ o ∈ b.resting .buy ∧
      b.amendOrder .int64 o.id 3 none (fun _ => 9) = some out ∧
      3 ≤ o.remainingQuantity ∧ out.report = .reject o.id .unknownOrder ∧
      ¬ b.Resized .int64 o 3 out.book := by
  obtain ⟨replies, b, hrun, hrest, hamend⟩ := Approach.session_ends
    (P := fun b => b.resting .buy = [⟨0, 100, 5, 5, 0, 1, 7, .buy, .limit, .gtc⟩] ∧
      b.amendOrder .int64 0 3 none (fun _ => 9) = some ⟨.reject 0 .unknownOrder, [], b⟩)
    (show ((Approach.array.session .int64 1 90 110 4 .none
      [(.add ⟨0, 100, 5, 0, 0, 1, 7, .buy, .limit, .gtc⟩, fun _ => 0)]).any _) = true by
        decide +kernel)
  refine ⟨b, ⟨0, 100, 5, 5, 0, 1, 7, .buy, .limit, .gtc⟩, _,
    Approach.reachable_of_session (fun _ _ => trivial) hrun, by rw [hrest]; simp, hamend, by decide,
    rfl, ?_⟩
  intro hresized
  -- the same book cannot hold the order at both quantities
  obtain ⟨ahead, behind, hside, href⟩ := hresized.orders
  have horders := congrFun (congrArg RefBook.orders href) .buy
  rw [RefBook.setOrders_same, OrderBook.reference_orders, hside] at horders
  simp at horders

end LightningLob
