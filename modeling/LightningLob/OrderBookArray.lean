import LightningLob.OrderBook
import LightningLob.Bitset

/-! # Approach C: a direct-indexed price ladder

    `order_book_array.cpp`.  A side is a vector with one level per tick of the
    price band, a bitset of the occupied ticks, and the cached index of the
    best one.  An index outside the band is a fault. -/

namespace LightningLob

structure ArrayLevels where
  minPrice : Int
  maxPrice : Int
  levels : List PriceLevel
  bitmap : Bitset
  bestIdx : Option Nat := none
  deriving DecidableEq, Repr

namespace ArrayLevels

/-- `index_of`, a conversion to an unsigned type: a price below the band has
    no index. -/
def indexOf (a : ArrayLevels) (price : Int) : Run Nat :=
  if a.minPrice ≤ price then some (price - a.minPrice).toNat else none

/-- `price_of`. -/
def priceOf (a : ArrayLevels) (index : Nat) : Int := a.minPrice + index

/-- The next occupied index after `idx` in order of worsening price. -/
def nextWorse (side : Side) (bitmap : Bitset) (idx : Nat) : Run (Option Nat) :=
  match side with
  | .sell => bitmap.findNextSet (idx + 1)
  | .buy => if idx = 0 then pure none else bitmap.findPrevSet (idx - 1)

/-- A write through a reference to a level of the ladder. -/
def assign (a : ArrayLevels) (idx : Nat) (level : PriceLevel) : Run ArrayLevels :=
  if idx < a.levels.length then some { a with levels := a.levels.set idx level } else none

/-- Clear an emptied level's bit and, if it was the best, move the best index
    to the next occupied level. -/
def vacate (side : Side) (a : ArrayLevels) (idx : Nat) : Run ArrayLevels := do
  let bitmap ← a.bitmap.clear idx
  -- the scan runs on the bitmap with the bit already cleared
  let bestIdx ← if a.bestIdx = some idx then nextWorse side bitmap idx else pure a.bestIdx
  pure { a with bitmap := bitmap, bestIdx := bestIdx }

/-- A newly occupied index beats the cached best one. -/
def becomesBest (side : Side) (idx : Nat) : Option Nat → Bool
  | none => true
  | some best => match side with
    | .buy => idx > best
    | .sell => idx < best

/-- `rest_order`'s bookkeeping for a tick that may be unoccupied: stamp its
    price, set its bit, and let it become the best. -/
def occupy (side : Side) (a : ArrayLevels) (idx : Nat) (price : Int) : Run ArrayLevels := do
  if ← a.bitmap.test idx then
    pure a
  else
    -- an emptied level keeps the price of its last use, so it is stamped again
    let level ← a.levels[idx]?
    let a ← a.assign idx { level with price := price }
    let bitmap ← a.bitmap.set idx
    pure { a with
      bitmap := bitmap
      bestIdx := if becomesBest side idx a.bestIdx then some idx else a.bestIdx }

/-- The loop of `has_liquidity_for`.  The index moves one way through the
    ladder, so its length bounds the rounds. -/
def liquidityLoop (pf : Platform) (side : Side) (a : ArrayLevels) (type : OrderType)
    (limitPrice : Int) (needed : Int) : Nat → Int → Option Nat → Run Bool
  | 0, _, _ => none
  | _ + 1, _, none => pure false
  | fuel + 1, accumulated, some idx => do
      let level ← a.levels[idx]?
      if type = .limit ∧ better side limitPrice level.price then
        pure false
      else
        let accumulated := pf.wrap (accumulated + level.totalQuantity)
        if accumulated ≥ needed then
          pure true
        else
          let next ← nextWorse side a.bitmap idx
          liquidityLoop pf side a type limitPrice needed fuel accumulated next

/-- The loop of `bid_depth` / `ask_depth`, `n` entries still wanted. -/
def depthLoop (side : Side) (a : ArrayLevels) : Nat → Option Nat → Run (List PriceLevelView)
  | 0, _ => pure []
  | _ + 1, none => pure []
  | n + 1, some idx => do
      let level ← a.levels[idx]?
      let next ← nextWorse side a.bitmap idx
      let rest ← depthLoop side a n next
      pure (⟨level.price, level.totalQuantity, level.orderCount⟩ :: rest)

/-- The `clear_side` loop of `reset`: walk the set bits upwards, clearing each
    level and its bit. -/
def clearLoop : Nat → List PriceLevel → Bitset → Option Nat → Run (List PriceLevel × Bitset)
  | 0, _, _, _ => none
  | _ + 1, levels, bitmap, none => pure (levels, bitmap)
  | fuel + 1, levels, bitmap, some idx => do
      let level ← levels[idx]?
      let bitmap ← bitmap.clear idx
      -- the walk is upwards on both sides, unlike `nextWorse`
      let next ← bitmap.findNextSet (idx + 1)
      clearLoop fuel (levels.set idx level.clearOrders) bitmap next

instance : LevelStore ArrayLevels where
  best _ a := a.bestIdx.map a.priceOf
  front _ a :=
    match a.bestIdx with
    | none => pure none
    | some idx => do
        let level ← a.levels[idx]?
        pure (some (level.price, level))
  putFront side a level :=
    match a.bestIdx with
    | none => none
    | some idx => do
        let a ← a.assign idx level
        if level.empty then a.vacate side idx else pure a
  find _ a price := do
    let idx ← a.indexOf price
    let level ← a.levels[idx]?
    pure (some level)
  deref _ a price := do
    let idx ← a.indexOf price
    a.levels[idx]?
  write _ a price level := do
    let idx ← a.indexOf price
    a.assign idx level
  put side a price level := do
    let idx ← a.indexOf price
    let a ← a.assign idx level
    if level.empty then a.vacate side idx else pure a
  upsert side a price f := do
    let idx ← a.indexOf price
    let a ← a.occupy side idx price
    let (level, pool) ← f (← a.levels[idx]?)
    let a ← a.assign idx level
    pure (a, pool)
  hasLiquidity pf side a type limitPrice needed :=
    liquidityLoop pf side a type limitPrice needed (a.levels.length + 1) 0 a.bestIdx
  reserve n := reserveViews n
  depth side a n := depthLoop side a n a.bestIdx
  levelCount a := a.bitmap.count
  clear a := do
    let first ← a.bitmap.findNextSet 0
    let (levels, bitmap) ← clearLoop (a.levels.length + 1) a.levels a.bitmap first
    pure { a with levels := levels, bitmap := bitmap, bestIdx := none }
  inRange a price := a.minPrice ≤ price ∧ price ≤ a.maxPrice

/-- One empty side of the ladder. -/
def create (minPrice maxPrice : Int) (range : Nat) : ArrayLevels where
  minPrice := minPrice
  maxPrice := maxPrice
  levels := List.replicate range {}
  bitmap := Bitset.create range

end ArrayLevels

abbrev OrderBookArray : Type := OrderBook ArrayLevels

/-- `validate_and_compute_range`: throws on an empty band or one that does not
    lie above zero. -/
def validateAndComputeRange (minPrice maxPrice : Int) : Option Nat :=
  -- two throws, in this order
  if minPrice > maxPrice then none
  else if minPrice ≤ 0 then none
  else some ((maxPrice - minPrice).toNat + 1)

/-- `std::vector<PriceLevel>::max_size()`, at 32 bytes a level. -/
def kMaxLevels : Nat := (2 ^ 63 - 1) / 32

/-- The constructor; it does not return a book when the range check throws, nor
    when `bid_levels_(range_)` does. -/
def OrderBookArray.create (pf : Platform) (symbol : SymbolId) (minPrice maxPrice : Int)
    (orderCapacityHint : Nat) (stpPolicy : SelfTradePrevention) : Run OrderBookArray := do
  let range ← (validateAndComputeRange minPrice maxPrice).filter (· ≤ kMaxLevels)
  let idIndex ← IdIndexMap.create orderCapacityHint
  pure { symbol := symbol
         bids := ArrayLevels.create minPrice maxPrice range
         asks := ArrayLevels.create minPrice maxPrice range
         pool := OrderPool.create pf orderCapacityHint, idIndex := idIndex, stpPolicy := stpPolicy }

end LightningLob
