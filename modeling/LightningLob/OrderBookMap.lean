import LightningLob.OrderBook

/-! # Approach A: `std::map` price levels

    `order_book_map.cpp`.  A side is a `std::map` from price to level whose
    comparator puts the best price first, modelled by its in-order sequence of
    entries. -/

namespace LightningLob

/-- `std::map<Price, PriceLevel, Cmp>`, in iteration order. -/
structure MapLevels where
  entries : List (Int × PriceLevel) := []
  deriving DecidableEq, Repr

namespace MapLevels

/-- `map::find`. -/
def lookup (m : MapLevels) (price : Int) : Option PriceLevel :=
  (m.entries.find? fun e => e.1 = price).map Prod.snd

/-- `map::erase` by key. -/
def erase (m : MapLevels) (price : Int) : MapLevels :=
  ⟨m.entries.filter fun e => e.1 ≠ price⟩

/-- A write through a reference to the mapped level. -/
def assign (m : MapLevels) (price : Int) (level : PriceLevel) : MapLevels :=
  ⟨m.entries.map fun e => if e.1 = price then (price, level) else e⟩

/-- `map::try_emplace` of an absent key: the entry goes where the comparator
    puts it. -/
def emplace (side : Side) (m : MapLevels) (price : Int) (level : PriceLevel) : MapLevels :=
  ⟨m.entries.takeWhile (fun e => better side e.1 price) ++
    (price, level) :: m.entries.dropWhile fun e => better side e.1 price⟩

instance : LevelStore MapLevels where
  best _ m := m.entries.head?.map Prod.fst
  front _ m := pure m.entries.head?
  putFront _ m level :=
    match m.entries with
    | [] => none
    | (price, _) :: _ =>
        let m := m.assign price level
        pure (if level.empty then m.erase price else m)
  find _ m price := pure (m.lookup price)
  deref _ m price := m.lookup price
  write _ m price level := pure (m.assign price level)
  put _ m price level :=
    let m := m.assign price level
    pure (if level.empty then m.erase price else m)
  upsert side m price f :=
    match m.lookup price with
    | some level => do
        let (level, pool) ← f level
        pure (m.assign price level, pool)
    | none => do
        -- a fresh level: `try_emplace` default-constructs it at the price
        let (level, pool) ← f { price := price }
        pure (m.emplace side price level, pool)
  hasLiquidity pf side m type limitPrice needed :=
    pure (liquidityLoop pf side type limitPrice needed 0 m.entries)
  -- `min(n, size())` entries take less room than the map does
  reserve _ := pure ()
  depth _ m n := pure ((m.entries.take n).map fun e => ⟨e.1, e.2.totalQuantity, e.2.orderCount⟩)
  levelCount m := m.entries.length
  clear _ := pure {}
  inRange _ _ := true

end MapLevels

abbrev OrderBookMap : Type := OrderBook MapLevels

/-- The constructor.  The price band is accepted and ignored. -/
def OrderBookMap.create (pf : Platform) (symbol : SymbolId) (_minPrice _maxPrice : Int)
    (orderCapacityHint : Nat) (stpPolicy : SelfTradePrevention) : Run OrderBookMap := do
  let idIndex ← IdIndexMap.create orderCapacityHint
  pure { symbol := symbol, bids := {}, asks := {}, pool := OrderPool.create pf orderCapacityHint,
         idIndex := idIndex, stpPolicy := stpPolicy }

end LightningLob
