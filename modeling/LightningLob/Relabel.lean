import LightningLob.CallEffects

/-! # Rewriting the orders of a run

    A book looks at sides, prices and times through a few comparisons only.  A
    `Relabel` rewrites all three and keeps those comparisons, so a rewritten
    book takes every rewritten call as the book takes the call.  Dropping the
    timestamps is one such rewriting; exchanging the two sides is another. -/

namespace LightningLob

/-! ## Section 1: Rewriting orders, trades and calls -/

/-- A rewriting of sides, prices and times that keeps which of two prices of a
    side is the better one. -/
structure Relabel where
  side : Side → Side
  price : Int → Int
  time : Timestamp → Timestamp
  side_side : ∀ s, side (side s) = s
  side_opposite : ∀ s, side s.opposite = (side s).opposite
  better_eq : ∀ s p q, better (side s) (price p) (price q) = better s p q

/-- Nothing but the times is rewritten. -/
def Relabel.retime (time : Timestamp → Timestamp) : Relabel where
  side := id
  price := id
  time := time
  side_side := fun _ => rfl
  side_opposite := fun _ => rfl
  better_eq := fun _ _ _ => rfl

/-- Limit prices and amended prices lie in the band. -/
def Call.InBand (band : Int → Bool) : Call → Prop
  | .add order => order.type = .limit → band order.price = true
  | .amend _ _ newPrice => ∀ p, newPrice = some p → band p = true
  | _ => True

namespace Relabel

variable (f : Relabel)

def order (o : Order) : Order :=
  { o with side := f.side o.side, price := f.price o.price, timestamp := f.time o.timestamp }

/-- An order on its way in.  What a Market order has in its price field is not
    a price, and stays. -/
def incoming (o : Order) : Order :=
  { f.order o with price := if o.type = .limit then f.price o.price else o.price }

def trade (t : Trade) : Trade :=
  { t with takerSide := f.side t.takerSide, price := f.price t.price,
           timestamp := f.time t.timestamp }

def view (v : PriceLevelView) : PriceLevelView := { v with price := f.price v.price }

def reply (r : Reply) : Reply := { r with trades := r.trades.map f.trade }

def fold (r : Fold) : Fold where
  fills := r.fills.map fun x => (f.order x.1, x.2)
  dropped := r.dropped.map f.order
  rest := r.rest.map f.order
  remaining := r.remaining
  killed := r.killed

def call : Call → Call
  | .add order => .add (f.incoming order)
  | .amend id newQuantity newPrice => .amend id newQuantity (newPrice.map f.price)
  | c => c

/-- The book of the rewritten orders, over the given range of prices. -/
def book (range : Int → Bool) (r : RefBook) : RefBook where
  symbol := r.symbol
  policy := r.policy
  inRange := range
  orders := fun side => (r.orders (f.side side)).map f.order

def outcome (range : Int → Bool) (out : RefOutcome) : RefOutcome :=
  ⟨out.report, out.trades.map f.trade, f.book range out.book⟩

/-! ## Section 2: What matching looks at -/

section lists

variable {f} (taker : Order)

theorem incoming_of_limit {o : Order} (h : o.type = .limit) : f.incoming o = f.order o := by
  simp [incoming, order, h]

theorem price_inj {p q : Int} : f.price p = f.price q ↔ p = q := by
  constructor
  · intro h
    by_contra hne
    -- different prices would stay comparable
    rcases better_total .buy hne with hb | hb
    · rw [← f.better_eq, h, better_irrefl] at hb
      cases hb
    · rw [← f.better_eq, h, better_irrefl] at hb
      cases hb
  · exact congrArg f.price

theorem priceOk_eq (o : Order) (p : Int) : priceOk o p = !better o.side p o.price := by
  rw [Bool.eq_iff_iff]
  unfold priceOk better
  cases o.side <;> simp

theorem reaches_incoming (p : Int) :
    reaches (f.incoming taker) (f.price p) = reaches taker p := by
  have htype : (f.incoming taker).type = taker.type := rfl
  unfold reaches
  rw [htype]
  cases ht : taker.type with
  | market => simp
  | limit =>
    rw [incoming_of_limit ht, priceOk_eq, priceOk_eq]
    simp only [order, f.better_eq]

/-- Matching does not see the rewriting. -/
theorem fold_incoming (policy : SelfTradePrevention) (rem : Int) (makers : List Order) :
    LightningLob.fold policy (f.incoming taker) rem (makers.map f.order) =
      f.fold (LightningLob.fold policy taker rem makers) := by
  induction makers generalizing rem with
  | nil => rfl
  | cons m ms ih =>
    have hself : selfTrade policy (f.incoming taker) (f.order m) = selfTrade policy taker m := rfl
    have hqty : (f.order m).remainingQuantity = m.remainingQuantity := rfl
    simp only [List.map_cons, LightningLob.fold, hself, hqty, ih]
    by_cases hrem : rem ≤ 0
    · simp only [if_pos hrem, fold, List.map_nil, List.map_cons]
    by_cases hst : selfTrade policy taker m = true
    · cases policy <;>
        simp only [if_neg hrem, if_pos hst, fold, List.map_nil, List.map_cons]
    by_cases hle : m.remainingQuantity ≤ rem
    · simp only [if_neg hrem, if_neg hst, if_pos hle, fold, List.map_cons]
    · simp only [if_neg hrem, if_neg hst, if_neg hle, fold, List.map_nil, List.map_cons]
      rfl

theorem reachable_incoming (os : List Order) :
    reachable (f.incoming taker) (os.map f.order) = (reachable taker os).map f.order := by
  unfold reachable
  rw [List.filter_map]
  congr 1
  exact List.filter_congr fun o _ => reaches_incoming taker o.price

theorem beyond_incoming (os : List Order) :
    beyond (f.incoming taker) (os.map f.order) = (beyond taker os).map f.order := by
  unfold beyond
  rw [List.filter_map]
  congr 1
  refine List.filter_congr fun o _ => ?_
  show decide (¬ reaches (f.incoming taker) (f.price o.price) = true) = _
  rw [reaches_incoming]

theorem tradesOf_incoming (symbol : SymbolId) (now : Clock) (k : Nat)
    (fills : List (Order × Int)) :
    tradesOf symbol (f.incoming taker) (f.time ∘ now) k (fills.map fun x => (f.order x.1, x.2)) =
      (tradesOf symbol taker now k fills).map f.trade := by
  induction fills generalizing k with
  | nil => rfl
  | cons x fills ih =>
    simp only [List.map_cons, tradesOf, ih]
    rfl

theorem place_order (o : Order) (os : List Order) :
    place (f.order o) (os.map f.order) = (place o os).map f.order := by
  have hkeep : (fun x => decide (¬ better (f.order o).side (f.order o).price x.price = true)) ∘
      f.order = fun x => decide (¬ better o.side o.price x.price = true) := by
    funext x
    simp only [Function.comp_apply, order, f.better_eq]
  simp only [place, List.takeWhile_map, List.dropWhile_map, hkeep, List.map_append, List.map_cons]

/-- Splitting commutes with a map that keeps the relation. -/
theorem splitBy_loop_map {α β : Type} {g : α → β} {p : α → α → Bool} {q : β → β → Bool}
    (h : ∀ x y, q (g x) (g y) = p x y) (l : List α) (a : α) (xs : List α) (xss : List (List α)) :
    List.splitBy.loop q (l.map g) (g a) (xs.map g) (xss.map (List.map g)) =
      (List.splitBy.loop p l a xs xss).map (List.map g) := by
  induction l generalizing a xs xss with
  | nil => simp [List.splitBy.loop]
  | cons b l ih =>
    simp only [List.map_cons, List.splitBy.loop, h]
    cases p a b with
    | true => exact ih b (a :: xs) xss
    | false =>
      have := ih b [] ((a :: xs).reverse :: xss)
      simpa using this

theorem groups_order (os : List Order) :
    groups (os.map f.order) = (groups os).map (List.map f.order) := by
  cases os with
  | nil => rfl
  | cons o os =>
    refine splitBy_loop_map (fun x y => ?_) os o [] []
    show (f.price x.price == f.price y.price) = (x.price == y.price)
    rw [Bool.eq_iff_iff, beq_iff_eq, beq_iff_eq]
    exact price_inj

theorem depthOf_order (pf : Platform) (os : List Order) :
    depthOf pf (os.map f.order) = (depthOf pf os).map f.view := by
  unfold depthOf
  rw [groups_order, List.map_map, List.map_map]
  refine List.map_congr_left fun g hg => ?_
  -- a level has a first order, whose price is the level's
  obtain ⟨o, os', rfl⟩ := List.exists_cons_of_ne_nil (List.ne_nil_of_mem_splitBy hg)
  have hqty : Order.remainingQuantity ∘ f.order = Order.remainingQuantity := rfl
  simp only [Function.comp_apply, levelView, quantityOf, List.map_map, hqty, List.length_map]
  rfl

/-- The dry run does not see the rewriting either. -/
theorem liquid_view (pf : Platform) (needed : Int) (acc : Int) (vs : List PriceLevelView) :
    liquid pf (f.incoming taker).side.opposite taker.type (f.incoming taker).price needed acc
        (vs.map f.view) =
      liquid pf taker.side.opposite taker.type taker.price needed acc vs := by
  induction vs generalizing acc with
  | nil => rfl
  | cons v vs ih =>
    have hbeyond : (taker.type = .limit ∧ better (f.incoming taker).side.opposite
        (f.incoming taker).price (f.view v).price = true) ↔
          (taker.type = .limit ∧ better taker.side.opposite taker.price v.price = true) := by
      refine and_congr_right fun ht => ?_
      rw [incoming_of_limit ht]
      show better (f.side taker.side).opposite (f.price taker.price) (f.price v.price) = true ↔ _
      rw [← f.side_opposite, f.better_eq]
    simp only [List.map_cons, liquid, hbeyond, ih]
    rfl

end lists

/-! ## Section 3: The rewritten book -/

/-- The checks on a price: the rewritten one is in the new range exactly when
    the price is in the book's, and is positive exactly when the price is. -/
def Keeps (range : Int → Bool) (r : RefBook) (p : Int) : Prop :=
  range (f.price p) = r.inRange p ∧ (f.price p ≤ 0 ↔ p ≤ 0)

section books

variable {f} {range band : Int → Bool} {r : RefBook} {o : Order}

theorem mem_book_all {x : Order} : x ∈ (f.book range r).all ↔ ∃ o ∈ r.all, f.order o = x := by
  simp only [RefBook.mem_all, book, List.mem_map]
  constructor
  · rintro ⟨side, o, ho, rfl⟩
    exact ⟨o, ⟨f.side side, ho⟩, rfl⟩
  · rintro ⟨o, ⟨side, ho⟩, rfl⟩
    exact ⟨f.side side, o, by rw [f.side_side]; exact ho, rfl⟩

theorem book_find (h : r.Sound True) (id : OrderId) :
    (f.book range r).find id = (r.find id).map f.order := by
  cases hfind : r.find id with
  | none =>
    rw [Option.map_none, RefBook.find_eq_none]
    refine (RefBook.find_eq_none.mp hfind).imp_right fun hne x hx => ?_
    obtain ⟨o, ho, rfl⟩ := mem_book_all.mp hx
    exact hne o ho
  | some o =>
    obtain ⟨hid, ho, hoid⟩ := RefBook.find_some hfind
    rw [Option.map_some]
    cases hfind' : (f.book range r).find id with
    | none =>
      rcases RefBook.find_eq_none.mp hfind' with hz | hne
      · exact absurd hz hid
      · exact absurd hoid (hne (f.order o) (mem_book_all.mpr ⟨o, ho, rfl⟩))
    | some x =>
      obtain ⟨-, hx, hxid⟩ := RefBook.find_some hfind'
      obtain ⟨m, hm, rfl⟩ := mem_book_all.mp hx
      -- a real id names one resting order
      have hmo : m = o := List.inj_on_of_nodup_map (h.ids trivial).1 hm ho (hxid.trans hoid.symm)
      rw [hmo]

theorem book_orders (r : RefBook) (side : Side) :
    (f.book range r).orders (f.side side) = (r.orders side).map f.order := by
  show (r.orders (f.side (f.side side))).map f.order = _
  rw [f.side_side]

theorem book_setOrders (side : Side) (os : List Order) :
    f.book range (r.setOrders side os) =
      (f.book range r).setOrders (f.side side) (os.map f.order) := by
  have horders : (f.book range (r.setOrders side os)).orders =
      ((f.book range r).setOrders (f.side side) (os.map f.order)).orders := by
    funext s
    by_cases hs : s = f.side side
    · subst hs
      rw [book_orders, RefBook.setOrders_same, RefBook.setOrders_same]
    · have hne : f.side s ≠ side := fun hc => hs (by rw [← hc, f.side_side])
      rw [RefBook.setOrders_of_ne hs]
      show ((r.setOrders side os).orders (f.side s)).map f.order = _
      rw [RefBook.setOrders_of_ne hne]
      rfl
  exact RefBook.mk.injEq .. ▸ ⟨rfl, rfl, rfl, horders⟩

/-- The side an incoming order trades with. -/
theorem book_opposite (r : RefBook) (o : Order) :
    (f.book range r).orders (f.incoming o).side.opposite =
      (r.orders o.side.opposite).map f.order := by
  show (f.book range r).orders (f.side o.side).opposite = _
  rw [← f.side_opposite, book_orders]

theorem book_matched (r : RefBook) (o : Order) :
    (f.book range r).matched (f.incoming o) = f.fold (r.matched o) := by
  unfold RefBook.matched
  rw [book_opposite, reachable_incoming, ← fold_incoming]
  rfl

theorem book_afterMatch (r : RefBook) (o : Order) :
    (f.book range r).afterMatch (f.incoming o) = f.book range (r.afterMatch o) := by
  unfold RefBook.afterMatch
  rw [book_setOrders, book_matched, book_opposite, beyond_incoming, List.map_append,
    f.side_opposite]
  rfl

theorem book_rest (r : RefBook) (o : Order) :
    (f.book range r).rest (f.order o) = f.book range (r.rest o) := by
  unfold RefBook.rest
  rw [book_setOrders, ← place_order, ← book_orders]
  rfl

theorem book_execute (r : RefBook) (o : Order) (now : Clock) :
    (f.book range r).execute (f.incoming o) (f.time ∘ now) =
      f.outcome range (r.execute o now) := by
  have htrades : tradesOf r.symbol (f.incoming o) (f.time ∘ now) 0 (f.fold (r.matched o)).fills =
      (tradesOf r.symbol o now 0 (r.matched o).fills).map f.trade :=
    tradesOf_incoming o r.symbol now 0 (r.matched o).fills
  unfold RefBook.execute
  rw [book_matched, book_afterMatch]
  by_cases h₁ : (r.matched o).remaining = 0
  · rw [if_pos h₁]
    exact (if_pos h₁).trans (congrArg₂ (RefOutcome.mk _) htrades rfl)
  rw [if_neg h₁]
  refine (if_neg h₁).trans ?_
  by_cases h₂ : ¬ (r.matched o).killed = true ∧ o.restsInBook = true
  · -- what rests is a Limit order, so its price was rewritten on the way in
    have hlimit : o.type = .limit := by
      have hrests := h₂.2
      rw [Order.restsInBook, decide_eq_true_eq] at hrests
      exact hrests.1
    have hrest : (f.book range (r.afterMatch o)).rest
        { f.incoming o with remainingQuantity := (r.matched o).remaining } =
        f.book range
          ((r.afterMatch o).rest { o with remainingQuantity := (r.matched o).remaining }) := by
      rw [incoming_of_limit hlimit]
      exact book_rest (r.afterMatch o) { o with remainingQuantity := (r.matched o).remaining }
    rw [if_pos h₂]
    exact (if_pos h₂).trans (congrArg₂ (RefOutcome.mk _) htrades hrest)
  · rw [if_neg h₂]
    exact (if_neg h₂).trans (congrArg₂ (RefOutcome.mk _) htrades rfl)

theorem book_rejectReason (h : r.Sound True)
    (hkeeps : o.type = .limit → f.Keeps range r o.price) :
    (f.book range r).rejectReason (f.incoming o) = r.rejectReason o := by
  have hfind : ((f.book range r).find o.id).isSome = (r.find o.id).isSome := by
    rw [book_find h, Option.isSome_map]
  have hprice : (o.type = .limit ∧ (f.incoming o).price ≤ 0) ↔
      (o.type = .limit ∧ o.price ≤ 0) := by
    refine and_congr_right fun ht => ?_
    rw [incoming_of_limit ht]
    exact (hkeeps ht).2
  have hrange : (o.type = .limit ∧ ¬ range (f.incoming o).price = true) ↔
      (o.type = .limit ∧ ¬ r.inRange o.price = true) := by
    refine and_congr_right fun ht => ?_
    rw [incoming_of_limit ht, show range (f.order o).price = r.inRange o.price from (hkeeps ht).1]
  show (if o.quantity ≤ 0 then _ else if o.type = .limit ∧ (f.incoming o).price ≤ 0 then _ else
    if o.type = .limit ∧ ¬ range (f.incoming o).price = true then _ else
    if ((f.book range r).find o.id).isSome = true then _ else _) = _
  simp only [hprice, hrange, hfind]
  rfl

theorem book_fokKilled (pf : Platform) (r : RefBook) (o : Order) :
    (f.book range r).fokKilled pf (f.incoming o) = r.fokKilled pf o := by
  unfold RefBook.fokKilled
  rw [book_opposite, depthOf_order,
    show (f.incoming o).type = o.type from rfl, show (f.incoming o).quantity = o.quantity from rfl,
    liquid_view]
  rfl

theorem book_addOrder (pf : Platform) (h : r.Sound True)
    (hkeeps : o.type = .limit → f.Keeps range r o.price) (now : Clock) :
    (f.book range r).addOrder pf (f.incoming o) (f.time ∘ now) =
      f.outcome range (r.addOrder pf o now) := by
  unfold RefBook.addOrder
  rw [book_rejectReason h hkeeps, book_fokKilled]
  cases r.rejectReason o with
  | some reason => rfl
  | none =>
    cases r.fokKilled pf o with
    | true => rfl
    | false => exact book_execute r o.opened now

theorem book_remove (r : RefBook) (id : OrderId) :
    (f.book range r).remove id = f.book range (r.remove id) := by
  unfold RefBook.remove book
  congr 1
  funext side
  exact List.filter_map ..

theorem book_resize (r : RefBook) (id : OrderId) (quantity : Int) :
    (f.book range r).resize id quantity = f.book range (r.resize id quantity) := by
  unfold RefBook.resize book
  congr 1
  funext side
  rw [List.map_map, List.map_map]
  refine List.map_congr_left fun o _ => ?_
  show (if o.id = id then _ else _) = f.order (if o.id = id then _ else _)
  split <;> rfl

/-- The order that replaces a rewritten one is the rewritten replacement. -/
theorem replacement_order (hlimit : o.type = .limit) (newQuantity : Int) (newPrice : Option Int)
    (timestamp : Timestamp) :
    OrderBook.replacement (f.order o) newQuantity (newPrice.map f.price) (f.time timestamp) =
      f.incoming (OrderBook.replacement o newQuantity newPrice timestamp) := by
  rw [incoming_of_limit (show (OrderBook.replacement o newQuantity newPrice timestamp).type = _
    from hlimit)]
  cases newPrice <;> rfl

theorem book_amendOrder (pf : Platform) (h : r.Sound True)
    (hholds : ∀ o ∈ r.all, f.Keeps range r o.price) (id : OrderId) (newQuantity : Int)
    {newPrice : Option Int} (hkeeps : ∀ p, newPrice = some p → f.Keeps range r p) (now : Clock) :
    (f.book range r).amendOrder pf id newQuantity (newPrice.map f.price) (f.time ∘ now) =
      f.outcome range (r.amendOrder pf id newQuantity newPrice now) := by
  unfold RefBook.amendOrder
  rw [book_find h]
  cases hfind : r.find id with
  | none => rfl
  | some o =>
    have hlimit : o.type = .limit := by
      have hrests := (RefBook.find_placed h hfind).rests
      rw [Order.restsInBook, decide_eq_true_eq] at hrests
      exact hrests.1
    have hrange : ((newPrice.map f.price).any fun p => ¬ (f.book range r).inRange p) =
        newPrice.any fun p => ¬ r.inRange p := by
      cases newPrice with
      | none => rfl
      | some p =>
        show decide (¬ range (f.price p) = true) = _
        rw [(hkeeps p rfl).1]
        rfl
    have hmoved : ((newPrice.map f.price).any fun p => p ≠ (f.order o).price) =
        newPrice.any fun p => p ≠ o.price := by
      cases newPrice with
      | none => rfl
      | some p =>
        show decide (f.price p ≠ f.price o.price) = decide (p ≠ o.price)
        simp only [ne_eq, price_inj]
    simp only [Option.map_some, hrange, hmoved]
    by_cases hq : newQuantity ≤ 0
    · rw [if_pos hq, if_pos hq]
      rfl
    rw [if_neg hq, if_neg hq]
    by_cases hr : (newPrice.any fun p => ¬ r.inRange p) = true
    · rw [if_pos hr, if_pos hr]
      rfl
    rw [if_neg hr, if_neg hr]
    -- in place when the price stays and the quantity does not grow
    by_cases hkeep : (¬ (newPrice.any fun p => p ≠ o.price) = true) ∧
        ¬ newQuantity > o.remainingQuantity
    · rw [if_pos hkeep, book_resize]
      exact if_pos hkeep
    · rw [if_neg hkeep, book_remove]
      refine (if_neg hkeep).trans ?_
      show RefBook.addOrder pf _ (OrderBook.replacement (f.order o) newQuantity
        (newPrice.map f.price) (f.time (now 0))) (f.time ∘ fun k => now (k + 1)) = _
      rw [replacement_order hlimit]
      refine book_addOrder pf (h.remove id) (fun _ => ?_) _
      cases newPrice with
      | none => exact hholds o (RefBook.find_some hfind).2.1
      | some p => exact hkeeps p rfl

/-- **Rewriting commutes with every call** whose prices the range checks and
    the sign check treat alike. -/
theorem book_call (pf : Platform) (h : r.Sound True)
    (hkeeps : ∀ p, band p = true → f.Keeps range r p) (hholds : ∀ o ∈ r.all, band o.price = true)
    {c : Call} (hin : c.InBand band) (now : Clock) :
    (f.book range r).call pf (f.call c, f.time ∘ now) =
      (f.reply (r.call pf (c, now)).1, f.book range (r.call pf (c, now)).2) := by
  cases c with
  | add order =>
    simp only [RefBook.call, call, book_addOrder pf h (fun ht => hkeeps _ (hin ht)) now]
    rfl
  | cancel id =>
    simp only [RefBook.call, call, RefBook.cancelOrder, book_find h]
    cases r.find id with
    | none => rfl
    | some o =>
      simp only [Option.map_some, book_remove]
      rfl
  | amend id newQuantity newPrice =>
    simp only [RefBook.call, call, book_amendOrder pf h (fun o ho => hkeeps _ (hholds o ho)) id
      newQuantity (fun p hp => hkeeps p (hin p hp)) now]
    rfl
  | reset => rfl

/-- The times alone may be rewritten under any call. -/
theorem retime_book_call (pf : Platform) (time : Timestamp → Timestamp) (h : r.Sound True)
    (c : Call) (now : Clock) :
    ((retime time).book r.inRange r).call pf ((retime time).call c, time ∘ now) =
      ((retime time).reply (r.call pf (c, now)).1,
        (retime time).book r.inRange (r.call pf (c, now)).2) := by
  have hin : c.InBand fun _ => true := by
    cases c <;> simp [Call.InBand]
  exact book_call pf h (fun p _ => ⟨rfl, Iff.rfl⟩) (fun _ _ => rfl) hin now

end books

end Relabel

end LightningLob
