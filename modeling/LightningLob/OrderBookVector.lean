import LightningLob.OrderBook
import LightningLob.Lib.LowerBound

/-! # Approach B: sorted `std::vector` price levels

    `order_book_vector.cpp`.  A side is a vector of levels with the best price
    in front, searched with `std::ranges::lower_bound`. -/

namespace LightningLob

structure VectorLevels where
  items : List PriceLevel := []
  deriving DecidableEq, Repr

namespace VectorLevels

/-- `find_bid_position` / `find_ask_position`: the first level not strictly
    better than `price`. -/
def findPosition (side : Side) (v : VectorLevels) (price : Int) : Nat :=
  BinarySearch.lowerBound (fun level : PriceLevel => better side level.price price) v.items

/-- The level at a position, if the position holds one at exactly `price`. -/
def levelAt (side : Side) (v : VectorLevels) (price : Int) : Option PriceLevel :=
  v.items[v.findPosition side price]?.filter fun level => level.price = price

instance : LevelStore VectorLevels where
  best _ v := v.items.head?.map PriceLevel.price
  front _ v := pure (v.items.head?.map fun level => (level.price, level))
  putFront _ v level :=
    match v.items with
    | [] => none
    | _ :: rest => pure ⟨if level.empty then rest else level :: rest⟩
  find side v price := pure (v.levelAt side price)
  deref side v price := v.items[v.findPosition side price]?
  write side v price level := pure ⟨v.items.set (v.findPosition side price) level⟩
  put side v price level :=
    let pos := v.findPosition side price
    pure ⟨if level.empty then v.items.eraseIdx pos else v.items.set pos level⟩
  upsert side v price f :=
    let pos := v.findPosition side price
    match v.levelAt side price with
    | some level => do
        let (level, pool) ← f level
        pure (⟨v.items.set pos level⟩, pool)
    | none => do
        let (level, pool) ← f { price := price }
        pure (⟨v.items.insertIdx pos level⟩, pool)
  hasLiquidity pf side v type limitPrice needed :=
    pure (liquidityLoop pf side type limitPrice needed 0 (v.items.map fun l => (l.price, l)))
  -- `min(n, size())` entries take less room than the levels do
  reserve _ := pure ()
  depth _ v n := pure ((v.items.take n).map fun l => ⟨l.price, l.totalQuantity, l.orderCount⟩)
  levelCount v := v.items.length
  clear _ := pure {}
  inRange _ _ := true

end VectorLevels

abbrev OrderBookVector : Type := OrderBook VectorLevels

/-- The constructor.  The price band is accepted and ignored. -/
def OrderBookVector.create (pf : Platform) (symbol : SymbolId) (_minPrice _maxPrice : Int)
    (orderCapacityHint : Nat) (stpPolicy : SelfTradePrevention) : Run OrderBookVector := do
  let idIndex ← IdIndexMap.create orderCapacityHint
  pure { symbol := symbol, bids := {}, asks := {}, pool := OrderPool.create pf orderCapacityHint,
         idIndex := idIndex, stpPolicy := stpPolicy }

end LightningLob
