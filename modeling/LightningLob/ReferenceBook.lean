import LightningLob.Reference
import Mathlib.Data.List.SplitBy
import Mathlib.Logic.Function.Basic

/-! # The reference book

    A book as two lists of orders in priority order, with the four operations
    and the observations of the real ones.  It has no pool, no links, no index
    and no level container; a level is a run of equal prices. -/

namespace LightningLob

/-! ## Section 1: Levels of a list in priority order -/

/-- The price levels of a side. -/
def groups (os : List Order) : List (List Order) :=
  os.splitBy fun a b => a.price == b.price

/-- The exact open quantity of a list of orders. -/
def quantityOf (os : List Order) : Int := (os.map Order.remainingQuantity).sum

/-- The depth entry of one level. -/
def levelView (pf : Platform) (g : List Order) : PriceLevelView :=
  ⟨(g.head?.map Order.price).getD 0, pf.wrap (quantityOf g), g.length⟩

/-- The full depth of a side. -/
def depthOf (pf : Platform) (os : List Order) : List PriceLevelView :=
  (groups os).map (levelView pf)

/-- The FOK dry run over the levels still ahead. -/
def liquid (pf : Platform) (side : Side) (type : OrderType) (limitPrice : Int) (needed : Int) :
    Int → List PriceLevelView → Bool
  | _, [] => false
  | accumulated, v :: rest =>
      if type = .limit ∧ better side limitPrice v.price then
        false
      else
        let accumulated := pf.wrap (accumulated + v.totalQuantity)
        if accumulated ≥ needed then
          true
        else
          liquid pf side type limitPrice needed accumulated rest

/-- Where an order joins its side: behind every order of a better or equal
    price. -/
def place (order : Order) (os : List Order) : List Order :=
  os.takeWhile (fun o => ¬ better order.side order.price o.price) ++
    order :: os.dropWhile fun o => ¬ better order.side order.price o.price

/-! ## Section 2: The book and its operations -/

structure RefBook where
  symbol : SymbolId
  policy : SelfTradePrevention
  inRange : Int → Bool
  orders : Side → List Order

/-- What the reference returns for an order or an amend. -/
structure RefOutcome where
  report : ExecutionReport
  trades : List Trade
  book : RefBook

namespace RefBook

/-- Every resting order. -/
def all (r : RefBook) : List Order := r.orders .buy ++ r.orders .sell

/-- The resting order with an id; id zero names no order. -/
def find (r : RefBook) (id : OrderId) : Option Order :=
  if id = kInvalidOrderId then none else r.all.find? fun o => o.id = id

def setOrders (r : RefBook) (side : Side) (os : List Order) : RefBook :=
  { r with orders := Function.update r.orders side os }

/-- The checks of `add_order`. -/
def rejectReason (r : RefBook) (order : Order) : Option RejectReason :=
  if order.quantity ≤ 0 then
    some .invalidQuantity
  else if order.type = .limit ∧ order.price ≤ 0 then
    some .invalidPrice
  else if order.type = .limit ∧ ¬ r.inRange order.price then
    some .priceOutOfRange
  else if (r.find order.id).isSome then
    some .duplicateOrderId
  else
    none

/-- The FOK dry run fails. -/
def fokKilled (pf : Platform) (r : RefBook) (order : Order) : Bool :=
  order.timeInForce = .fok ∧
    ¬ liquid pf order.side.opposite order.type order.price order.quantity 0
      (depthOf pf (r.orders order.side.opposite))

/-- The fold of an incoming order over the makers it can reach. -/
def matched (r : RefBook) (order : Order) : Fold :=
  fold r.policy order order.remainingQuantity (reachable order (r.orders order.side.opposite))

/-- The book once an incoming order has matched. -/
def afterMatch (r : RefBook) (order : Order) : RefBook :=
  r.setOrders order.side.opposite
    ((r.matched order).rest ++ beyond order (r.orders order.side.opposite))

/-- Put an order behind its price on its side. -/
def rest (r : RefBook) (order : Order) : RefBook :=
  r.setOrders order.side (place order (r.orders order.side))

/-- Something is left of an accepted order and it joins its side. -/
def Joins (r : RefBook) (order : Order) : Prop :=
  0 < (r.matched order).remaining ∧ ¬ (r.matched order).killed = true ∧ order.restsInBook = true

/-- An accepted order: match it, then fill, rest or discard it. -/
def execute (r : RefBook) (order : Order) (now : Nat → Timestamp) : RefOutcome :=
  let f := r.matched order
  let trades := tradesOf r.symbol order now 0 f.fills
  let filled := order.quantity - f.remaining
  if f.remaining = 0 then
    ⟨⟨order.id, .filled, filled, 0, .none⟩, trades, r.afterMatch order⟩
  else if ¬ f.killed ∧ order.restsInBook then
    ⟨⟨order.id, if filled > 0 then .partiallyFilled else .new, filled, f.remaining, .none⟩, trades,
      (r.afterMatch order).rest { order with remainingQuantity := f.remaining }⟩
  else
    ⟨⟨order.id, .cancelled, filled, 0, .none⟩, trades, r.afterMatch order⟩

def addOrder (pf : Platform) (r : RefBook) (order : Order) (now : Nat → Timestamp) : RefOutcome :=
  match r.rejectReason order with
  | some reason => ⟨.reject order.id reason, [], r⟩
  | none =>
      if r.fokKilled pf order then
        ⟨⟨order.id, .cancelled, 0, 0, .none⟩, [], r⟩
      else
        r.execute order.opened now

/-- The book without the orders of an id. -/
def remove (r : RefBook) (id : OrderId) : RefBook :=
  { r with orders := fun side => (r.orders side).filter fun o => o.id ≠ id }

def cancelOrder (r : RefBook) (id : OrderId) : Bool × RefBook :=
  match r.find id with
  | none => (false, r)
  | some _ => (true, r.remove id)

/-- The book with the open quantity of an id set in place. -/
def resize (r : RefBook) (id : OrderId) (quantity : Int) : RefBook :=
  { r with orders := fun side => (r.orders side).map fun o =>
      if o.id = id then { o with remainingQuantity := quantity } else o }

def amendOrder (pf : Platform) (r : RefBook) (id : OrderId) (newQuantity : Int)
    (newPrice : Option Int) (now : Nat → Timestamp) : RefOutcome :=
  match r.find id with
  | none => ⟨.reject id .unknownOrder, [], r⟩
  -- the checks of the source, in its order
  | some snapshot =>
      if newQuantity ≤ 0 then
        ⟨.reject id .invalidQuantity, [], r⟩
      else if newPrice.any fun p => ¬ r.inRange p then
        ⟨.reject id .priceOutOfRange, [], r⟩
      else if (¬ newPrice.any fun p => p ≠ snapshot.price) ∧
          ¬ newQuantity > snapshot.remainingQuantity then
        ⟨⟨id, .new, 0, newQuantity, .none⟩, [], r.resize id newQuantity⟩
      else
        (r.remove id).addOrder pf (OrderBook.replacement snapshot newQuantity newPrice (now 0))
          fun k => now (k + 1)

def reset (r : RefBook) : RefBook := { r with orders := fun _ => [] }

/-! ## Section 3: Reading and writing one side -/

section one_side

variable {r : RefBook} {side : Side} {os : List Order}

@[simp] theorem setOrders_same : (r.setOrders side os).orders side = os := by
  simp [setOrders]

theorem setOrders_of_ne {side' : Side} (h : side' ≠ side) :
    (r.setOrders side os).orders side' = r.orders side' := by
  simp [setOrders, h]

theorem setOrders_self (r : RefBook) (side : Side) : r.setOrders side (r.orders side) = r := by
  unfold setOrders
  rw [Function.update_eq_self]

theorem mem_all {o : Order} : o ∈ r.all ↔ ∃ side, o ∈ r.orders side := by
  rw [all, List.mem_append]
  constructor
  · rintro (h | h)
    · exact ⟨_, h⟩
    · exact ⟨_, h⟩
  · rintro ⟨_ | _, h⟩
    · exact Or.inl h
    · exact Or.inr h

theorem find_eq_none {id : OrderId} :
    r.find id = none ↔ id = kInvalidOrderId ∨ ∀ o ∈ r.all, o.id ≠ id := by
  unfold find
  by_cases hid : id = kInvalidOrderId <;> simp [hid]

theorem find_some {id : OrderId} {o : Order} (h : r.find id = some o) :
    id ≠ kInvalidOrderId ∧ o ∈ r.all ∧ o.id = id := by
  unfold find at h
  by_cases hid : id = kInvalidOrderId
  · rw [if_pos hid] at h; cases h
  · rw [if_neg hid] at h
    exact ⟨hid, List.mem_of_find?_eq_some h, by simpa using List.find?_some h⟩

end one_side

/-- Joining a side splits it around the order's price. -/
theorem place_eq {order : Order} {xs ys : List Order}
    (hxs : ∀ x ∈ xs, better order.side order.price x.price = false)
    (hys : ∀ y ∈ ys, better order.side order.price y.price = true) :
    place order (xs ++ ys) = xs ++ order :: ys := by
  -- both scans stop at the first order of a worse price
  have hstop : ys.takeWhile (fun o => ¬ better order.side order.price o.price) = [] ∧
      ys.dropWhile (fun o => ¬ better order.side order.price o.price) = ys := by
    cases ys with
    | nil => exact ⟨rfl, rfl⟩
    | cons y ys => simp [hys y (by simp)]
  have hgo : ∀ x ∈ xs,
      (fun o : Order => decide (¬ better order.side order.price o.price = true)) x = true := by
    intro x hx
    simp [hxs x hx]
  rw [place, List.takeWhile_append_of_pos hgo, List.dropWhile_append_of_pos hgo, hstop.1, hstop.2,
    List.append_nil]

theorem place_perm (order : Order) (os : List Order) : (place order os).Perm (order :: os) := by
  unfold place
  refine List.perm_middle.trans (List.Perm.cons _ ?_)
  rw [List.takeWhile_append_dropWhile]

theorem mem_place {order o : Order} {os : List Order} :
    o ∈ place order os ↔ o = order ∨ o ∈ os := by
  rw [(place_perm order os).mem_iff, List.mem_cons]

theorem mem_rest {r : RefBook} {order o : Order} {side : Side} :
    o ∈ (r.rest order).orders side ↔ (side = order.side ∧ o = order) ∨ o ∈ r.orders side := by
  rcases order.side.eq_or_opposite side with rfl | rfl
  · rw [rest, setOrders_same, mem_place]
    simp
  · rw [rest, setOrders_of_ne (Side.opposite_ne order.side)]
    simp

/-- Removing an id that one order of a side has. -/
theorem remove_eq {r : RefBook} {side : Side} {xs ys : List Order} {o : Order} {id : OrderId}
    (hside : r.orders side = xs ++ o :: ys) (ho : o.id = id) (hne : ∀ x ∈ xs ++ ys, x.id ≠ id)
    (hopp : ∀ x ∈ r.orders side.opposite, x.id ≠ id) :
    r.remove id = r.setOrders side (xs ++ ys) := by
  have horders : (r.remove id).orders = (r.setOrders side (xs ++ ys)).orders := by
    funext side'
    rcases side.eq_or_opposite side' with rfl | rfl
    -- on its own side only the order itself has the id
    · rw [setOrders_same]
      show (r.orders side').filter _ = xs ++ ys
      rw [hside, List.filter_append, List.filter_cons_of_neg (by simp [ho]), ← List.filter_append,
        List.filter_eq_self]
      intro x hx
      simpa using hne x hx
    · rw [setOrders_of_ne (Side.opposite_ne side)]
      show (r.orders side.opposite).filter _ = _
      rw [List.filter_eq_self]
      intro x hx
      simpa using hopp x hx
  exact RefBook.mk.injEq .. ▸ ⟨rfl, rfl, rfl, horders⟩

/-- Resizing an id that one order of a side has. -/
theorem resize_eq {r : RefBook} {side : Side} {xs ys : List Order} {o : Order} {id : OrderId}
    {quantity : Int} (hside : r.orders side = xs ++ o :: ys) (ho : o.id = id)
    (hne : ∀ x ∈ xs ++ ys, x.id ≠ id) (hopp : ∀ x ∈ r.orders side.opposite, x.id ≠ id) :
    r.resize id quantity =
      r.setOrders side (xs ++ { o with remainingQuantity := quantity } :: ys) := by
  have hkeep : ∀ os : List Order, (∀ x ∈ os, x.id ≠ id) →
      os.map (fun o => if o.id = id then { o with remainingQuantity := quantity } else o) = os := by
    intro os hos
    rw [List.map_congr_left (fun x hx => if_neg (hos x hx)), List.map_id']
  have horders : (r.resize id quantity).orders =
      (r.setOrders side (xs ++ { o with remainingQuantity := quantity } :: ys)).orders := by
    funext side'
    rcases side.eq_or_opposite side' with rfl | rfl
    · rw [setOrders_same]
      show (r.orders side').map _ = _
      rw [hside, List.map_append, List.map_cons, if_pos ho,
        hkeep xs fun x hx => hne x (by simp [hx]), hkeep ys fun x hx => hne x (by simp [hx])]
    · rw [setOrders_of_ne (Side.opposite_ne side)]
      exact hkeep _ hopp
  exact RefBook.mk.injEq .. ▸ ⟨rfl, rfl, rfl, horders⟩

/-- Matching only takes quantity off resting orders. -/
theorem mem_afterMatch {r : RefBook} {order o : Order} {side : Side}
    (h : o ∈ (r.afterMatch order).orders side) : ∃ m ∈ r.orders side, Leaves m o := by
  -- matching touches the opposite side only
  rcases order.side.opposite.eq_or_opposite side with rfl | hside
  · rw [afterMatch, setOrders_same, List.mem_append] at h
    rcases h with h | h
    · obtain ⟨m, hm, hleaves⟩ := (fold_folds _ _ _ _).rest_spec h
      exact ⟨m, List.mem_of_mem_filter hm, hleaves⟩
    · exact ⟨o, List.mem_of_mem_filter h, .refl o⟩
  · rw [afterMatch, setOrders_of_ne (by rw [hside]; exact Side.opposite_ne _)] at h
    exact ⟨o, h, .refl o⟩

/-- What the checks of `add_order` promise. -/
theorem rejectReason_eq_none {r : RefBook} {order : Order} : r.rejectReason order = none ↔
    0 < order.quantity ∧ (order.type = .limit → 0 < order.price ∧ r.inRange order.price = true) ∧
      r.find order.id = none := by
  unfold rejectReason
  by_cases h₁ : order.quantity ≤ 0
  · simp [h₁, Int.not_lt.mpr h₁]
  by_cases h₂ : order.type = .limit ∧ order.price ≤ 0
  · simp [h₁, h₂, Int.not_lt.mpr h₂.2]
  by_cases h₃ : order.type = .limit ∧ ¬ r.inRange order.price = true
  · rw [if_neg h₁, if_neg h₂, if_pos h₃]
    simp [h₃.1, h₃.2]
  rw [if_neg h₁, if_neg h₂, if_neg h₃]
  have hq : 0 < order.quantity := by omega
  have hp : order.type = .limit → 0 < order.price ∧ r.inRange order.price = true := by
    intro ht
    refine ⟨?_, ?_⟩
    · by_contra hc
      exact h₂ ⟨ht, by omega⟩
    · by_contra hc
      exact h₃ ⟨ht, hc⟩
  cases hf : r.find order.id with
  | none => simpa [hq] using hp
  | some o => simp

end RefBook

end LightningLob
