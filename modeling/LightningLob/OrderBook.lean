import LightningLob.OrderPool
import LightningLob.IdIndexMap

/-! # The order book, over any container of price levels

    `OrderBookMap`, `OrderBookVector` and `OrderBookArray` run the same
    matching code and differ only in how one side of the book stores its price
    levels.  `LevelStore` lists what that code asks of a side; the operations
    below are the source's, written once over it.  Each approach gives its own
    `LevelStore` instance, in its own module.

    Every call of `now_ns()` reads the clock: an operation takes the readings
    of the call as a function `now`, the `k`-th reading being `now k`.  The
    trades handed to the trade callback are returned in order. -/

namespace LightningLob

/-! ## Section 1: What matching asks of one side of a book -/

/-- `p` has strictly better priority than `q` on the given side: bids are
    best when high, asks when low. -/
def better (side : Side) (p q : Int) : Bool :=
  match side with
  | .buy => q < p
  | .sell => p < q

/-- One side of a book: a container of price levels. -/
class LevelStore (S : Type) where
  /-- `best_bid()` / `best_ask()`. -/
  best : Side → S → Option Int
  /-- The best level with the price its trades print at, if the side has one. -/
  front : Side → S → Run (Option (Int × PriceLevel))
  /-- Write the best level back after matching, and remove it if it is empty. -/
  putFront : Side → S → PriceLevel → Run S
  /-- The level of a resting order at the given price. -/
  find : Side → S → Int → Run (Option PriceLevel)
  /-- The same lookup, dereferenced without a check. -/
  deref : Side → S → Int → Run PriceLevel
  /-- Write a level back in place. -/
  write : Side → S → Int → PriceLevel → Run S
  /-- Write a level back after a cancel, and remove it if it is empty. -/
  put : Side → S → Int → PriceLevel → Run S
  /-- Find or create the level at a price and run the queue operation on it. -/
  upsert : Side → S → Int → (PriceLevel → Run (PriceLevel × OrderPool)) → Run (S × OrderPool)
  /-- `has_liquidity_for`, on the side that would be consumed. -/
  hasLiquidity : Platform → Side → S → OrderType → Int → Int → Run Bool
  /-- `out.reserve` in `bid_depth(n)` / `ask_depth(n)`. -/
  reserve : Nat → Run Unit
  /-- `bid_depth(n)` / `ask_depth(n)` after `out.reserve`. -/
  depth : Side → S → Nat → Run (List PriceLevelView)
  /-- `bid_level_count()` / `ask_level_count()`. -/
  levelCount : S → Nat
  /-- This side's part of `reset()`. -/
  clear : S → Run S
  /-- Whether the side can hold a level at the price at all. -/
  inRange : S → Int → Bool

structure OrderBook (S : Type) where
  symbol : SymbolId
  bids : S
  asks : S
  pool : OrderPool
  idIndex : IdIndexMap
  stpPolicy : SelfTradePrevention
  deriving DecidableEq, Repr

/-- What `add_order` and `amend_order` return, with the trades they emitted
    and the book they left. -/
structure Outcome (S : Type) where
  report : ExecutionReport
  trades : List Trade
  book : OrderBook S
  deriving DecidableEq, Repr

/-- What matching changes besides the level container. -/
structure Matching where
  taker : Order
  pool : OrderPool
  idIndex : IdIndexMap
  trades : List Trade := []
  deriving DecidableEq, Repr

/-! ## Section 2: Draining one level -/

/-- Matching a maker against the taker is a self-trade. -/
def selfTrade (policy : SelfTradePrevention) (taker maker : Order) : Bool :=
  policy ≠ .none ∧ taker.participantId ≠ kNoParticipant ∧
    taker.participantId = maker.participantId

/-- Take slot `idx` out of the queue, the id index and the pool. -/
def dropMaker (pf : Platform) (level : PriceLevel) (m : Matching) (idx : Nat) (id : OrderId) :
    Run (PriceLevel × Matching) := do
  let (level, pool) ← levelUnlink level m.pool idx
  let (_, idIndex) ← m.idIndex.erase id
  let pool ← pool.release pf idx
  pure (level, { m with pool := pool, idIndex := idIndex })

/-- One round of the inner loop, on the maker at the head of the queue.
    Returns whether self-trade prevention killed the taker. -/
def drainStep (pf : Platform) (policy : SelfTradePrevention) (symbol : SymbolId) (price : Int)
    (now : Nat → Timestamp) (level : PriceLevel) (m : Matching) (makerIdx : Nat) :
    Run (Bool × PriceLevel × Matching) := do
  let maker := (← m.pool.get makerIdx).order
  if selfTrade policy m.taker maker then
    -- checked before any quantity changes hands
    let killed := policy = .cancelIncoming ∨ policy = .cancelBoth
    if policy = .cancelResting ∨ policy = .cancelBoth then
      -- `level_unlink` leaves the aggregate to its caller
      let level := { level with
        totalQuantity := pf.wrap (level.totalQuantity - maker.remainingQuantity) }
      let (level, m) ← dropMaker pf level m makerIdx maker.id
      pure (killed, level, m)
    else
      pure (killed, level, m)
  else
    let qty := min m.taker.remainingQuantity maker.remainingQuantity
    let taker := { m.taker with remainingQuantity := m.taker.remainingQuantity - qty }
    let (level, pool) ← levelReduceQuantity pf level m.pool makerIdx qty
    let trade : Trade :=
      ⟨taker.id, maker.id, symbol, price, qty, now m.trades.length, taker.side,
        taker.participantId, maker.participantId⟩
    let m := { m with taker := taker, pool := pool, trades := m.trades ++ [trade] }
    -- a filled maker leaves the queue, the index and the pool
    if maker.remainingQuantity - qty = 0 then
      let (level, m) ← dropMaker pf level m makerIdx maker.id
      pure (false, level, m)
    else
      pure (false, level, m)

/-- The inner loop (`drain_level`): match the level's queue head by head until
    the queue or the taker is exhausted or self-trade prevention kills it. -/
def drainLevel (pf : Platform) (policy : SelfTradePrevention) (symbol : SymbolId) (price : Int)
    (now : Nat → Timestamp) : Nat → PriceLevel → Matching → Run (Bool × PriceLevel × Matching)
  | 0, _, _ => none
  | fuel + 1, level, m =>
      match level.head with
      -- `while (level.head != kNullIndex && taker.remaining_quantity > 0)`
      | none => pure (false, level, m)
      | some makerIdx =>
          if m.taker.remainingQuantity > 0 then do
            let (killed, level, m) ← drainStep pf policy symbol price now level m makerIdx
            if killed then
              pure (true, level, m)
            else
              drainLevel pf policy symbol price now fuel level m
          else
            pure (false, level, m)

/-! ## Section 3: The matching loop -/

/-- The loop of `has_liquidity_for` over the levels still ahead, best first:
    sum their aggregates up to the limit price, stopping once enough is found. -/
def liquidityLoop (pf : Platform) (side : Side) (type : OrderType) (limitPrice : Int)
    (needed : Int) : Int → List (Int × PriceLevel) → Bool
  | _, [] => false
  | accumulated, (price, level) :: rest =>
      if type = .limit ∧ better side limitPrice price then
        false
      else
        let accumulated := pf.wrap (accumulated + level.totalQuantity)
        if accumulated ≥ needed then
          true
        else
          liquidityLoop pf side type limitPrice needed accumulated rest

/-- A limit order does not trade through its limit. -/
def priceOk (taker : Order) (levelPrice : Int) : Bool :=
  match taker.side with
  | .buy => taker.price ≥ levelPrice
  | .sell => taker.price ≤ levelPrice

section books

variable {S : Type} [LevelStore S] (pf : Platform)

open LevelStore

/-- The outer loop of `match_against_book`, on the opposite side `levels`. -/
def matchLoop (policy : SelfTradePrevention) (symbol : SymbolId) (side : Side)
    (now : Nat → Timestamp) : Nat → S → Matching → Run (Bool × S × Matching)
  | 0, _, _ => none
  | fuel + 1, levels, m =>
      if m.taker.remainingQuantity > 0 then do
        match ← front side levels with
        | none => pure (false, levels, m)
        | some (levelPrice, level) =>
            if m.taker.type = .limit ∧ ¬ priceOk m.taker levelPrice then
              pure (false, levels, m)
            else
              -- every round but the last takes a live slot off the queue
              let (killed, level, m) ←
                drainLevel pf policy symbol levelPrice now (m.pool.nodes.length + 1) level m
              let levels ← putFront side levels level
              if killed then
                pure (true, levels, m)
              else
                matchLoop policy symbol side now fuel levels m
      else
        pure (false, levels, m)

namespace OrderBook

/-- The levels of one side. -/
def levels (b : OrderBook S) : Side → S
  | .buy => b.bids
  | .sell => b.asks

def setLevels (b : OrderBook S) (side : Side) (levels : S) : OrderBook S :=
  match side with
  | .buy => { b with bids := levels }
  | .sell => { b with asks := levels }

/-- `in_range`; the books without a price band accept every price. -/
def inRange (b : OrderBook S) (price : Int) : Bool := LevelStore.inRange b.bids price

def bestBid (b : OrderBook S) : Option Int := best .buy b.bids

def bestAsk (b : OrderBook S) : Option Int := best .sell b.asks

def spread (b : OrderBook S) : Option Int :=
  match b.bestBid, b.bestAsk with
  | some bb, some ba => some (ba - bb)
  | _, _ => none

def orderCount (b : OrderBook S) : Nat := b.idIndex.size

def bidLevelCount (b : OrderBook S) : Nat := levelCount b.bids

def askLevelCount (b : OrderBook S) : Nat := levelCount b.asks

def bidDepth (b : OrderBook S) (n : Nat) : Run (List PriceLevelView) := do
  reserve S n
  depth .buy b.bids n

def askDepth (b : OrderBook S) (n : Nat) : Run (List PriceLevelView) := do
  reserve S n
  depth .sell b.asks n

/-- `bid_depth` where `reserve` is a no-op. -/
def bidDepthUnreserved (b : OrderBook S) (n : Nat) : Run (List PriceLevelView) :=
  depth .buy b.bids n

/-- `ask_depth` where `reserve` is a no-op. -/
def askDepthUnreserved (b : OrderBook S) (n : Nat) : Run (List PriceLevelView) :=
  depth .sell b.asks n

/-- `crosses`: the order's price reaches the opposite best. -/
def crosses (b : OrderBook S) (order : Order) : Bool :=
  match order.side with
  | .buy => match b.bestAsk with
    | some ask => order.price ≥ ask
    | none => false
  | .sell => match b.bestBid with
    | some bid => order.price ≤ bid
    | none => false

/-- `has_liquidity_for`: the FOK dry run. -/
def hasLiquidityFor (b : OrderBook S) (takerSide : Side) (type : OrderType) (limitPrice : Int)
    (needed : Int) : Run Bool :=
  hasLiquidity pf takerSide.opposite (b.levels takerSide.opposite) type limitPrice needed

/-- `match_against_book`: whether self-trade prevention killed the taker, the
    taker as matching left it, the trades, and the book. -/
def matchAgainstBook (b : OrderBook S) (taker : Order) (now : Nat → Timestamp) :
    Run (Bool × Order × List Trade × OrderBook S) := do
  let side := taker.side.opposite
  let (killed, levels, m) ←
    matchLoop pf b.stpPolicy b.symbol side now (b.pool.nodes.length + 1) (b.levels side)
      { taker := taker, pool := b.pool, idIndex := b.idIndex }
  pure (killed, m.taker, m.trades,
    { b.setLevels side levels with pool := m.pool, idIndex := m.idIndex })

/-- `rest_order`: put the order at the tail of the queue at its price. -/
def restOrder (b : OrderBook S) (order : Order) : Run (OrderBook S) := do
  -- the index is written last, once the order is in its queue
  let (idx, pool) ← b.pool.acquire pf order
  let (levels, pool) ← upsert order.side (b.levels order.side) order.price
    fun level => levelPushBack pf level pool idx
  let (_, idIndex) ← b.idIndex.insert order.id idx
  pure { b.setLevels order.side levels with pool := pool, idIndex := idIndex }

/-! ## Section 4: The public operations -/

/-- The checks of `add_order`, in order: the first that fails gives the
    reason.  The id is looked up only if it is a real one. -/
def rejectReason (b : OrderBook S) (order : Order) : Run (Option RejectReason) :=
  if order.quantity ≤ 0 then
    pure (some .invalidQuantity)
  else if order.type = .limit ∧ order.price ≤ 0 then
    pure (some .invalidPrice)
  else if order.type = .limit ∧ ¬ b.inRange order.price then
    pure (some .priceOutOfRange)
  else if order.id = kInvalidOrderId then
    pure none
  else do
    let duplicate ← b.idIndex.contains order.id
    pure (if duplicate then some .duplicateOrderId else none)

/-- Whether the FOK dry run kills the order. -/
def fokKilled (b : OrderBook S) (order : Order) : Run Bool :=
  if order.timeInForce = .fok then do
    let liquid ← b.hasLiquidityFor pf order.side order.type order.price order.quantity
    pure (!liquid)
  else
    pure false

/-- The tail of `add_order`, once matching is over: fill, rest or discard. -/
def conclude (b : OrderBook S) (stpKilled : Bool) (order : Order) (trades : List Trade) :
    Run (Outcome S) :=
  let filled := order.quantity - order.remainingQuantity
  if order.remainingQuantity = 0 then
    pure ⟨⟨order.id, .filled, filled, 0, .none⟩, trades, b⟩
  else if ¬ stpKilled ∧ order.restsInBook then do
    let b ← b.restOrder pf order
    let status := if filled > 0 then .partiallyFilled else .new
    pure ⟨⟨order.id, status, filled, order.remainingQuantity, .none⟩, trades, b⟩
  else
    -- Market, IOC or killed with quantity left: the remainder is discarded
    pure ⟨⟨order.id, .cancelled, filled, 0, .none⟩, trades, b⟩

/-- Matching is entered by an order that has to or can trade at once. -/
def matchStep (b : OrderBook S) (order : Order) (now : Nat → Timestamp) :
    Run (Bool × Order × List Trade × OrderBook S) :=
  if order.type = .market ∨ order.timeInForce = .fok ∨ b.crosses order then
    b.matchAgainstBook pf order now
  else
    pure (false, order, [], b)

/-- The part of `add_order` that may change the book. -/
def execute (b : OrderBook S) (order : Order) (now : Nat → Timestamp) : Run (Outcome S) := do
  let (stpKilled, order, trades, b) ← b.matchStep pf order now
  b.conclude pf stpKilled order trades

/-- `add_order`. -/
def addOrder (b : OrderBook S) (order : Order) (now : Nat → Timestamp) : Run (Outcome S) := do
  match ← b.rejectReason order with
  | some reason => pure ⟨.reject order.id reason, [], b⟩
  | none =>
      if ← b.fokKilled pf order then
        -- killed before touching the book: not a validation failure
        pure ⟨⟨order.id, .cancelled, 0, 0, .none⟩, [], b⟩
      else
        b.execute pf order.opened now

/-- `cancel_order` once the id is found at slot `idx`. -/
def cancelAt (b : OrderBook S) (id : OrderId) (idx : Nat) : Run (Bool × OrderBook S) := do
  let order := (← b.pool.get idx).order
  match ← find order.side (b.levels order.side) order.price with
  -- a resting order's level is always there; the source checks all the same
  | none => pure (false, b)
  | some level =>
      let level := { level with
        totalQuantity := pf.wrap (level.totalQuantity - order.remainingQuantity) }
      let (level, pool) ← levelUnlink level b.pool idx
      let levels ← put order.side (b.levels order.side) order.price level
      let pool ← pool.release pf idx
      let (_, idIndex) ← b.idIndex.erase id
      pure (true, { b.setLevels order.side levels with pool := pool, idIndex := idIndex })

/-- `cancel_order`. -/
def cancelOrder (b : OrderBook S) (id : OrderId) : Run (Bool × OrderBook S) := do
  match ← b.idIndex.find id with
  | none => pure (false, b)
  | some idx => b.cancelAt pf id idx

/-- The size-down branch of `amend_order`: time priority is kept. -/
def amendInPlace (b : OrderBook S) (id : OrderId) (idx : Nat) (snapshot : Order)
    (newQuantity : Int) : Run (Outcome S) := do
  let level ← deref snapshot.side (b.levels snapshot.side) snapshot.price
  let (level, pool) ← levelReduceQuantity pf level b.pool idx
    (snapshot.remainingQuantity - newQuantity)
  let levels ← write snapshot.side (b.levels snapshot.side) snapshot.price level
  pure ⟨⟨id, .new, 0, newQuantity, .none⟩, [],
    { b.setLevels snapshot.side levels with pool := pool }⟩

/-- The order that replaces `snapshot` when priority is lost. -/
def replacement (snapshot : Order) (newQuantity : Int) (newPrice : Option Int)
    (timestamp : Timestamp) : Order :=
  { snapshot with
    price := newPrice.getD snapshot.price
    quantity := newQuantity
    remainingQuantity := newQuantity
    timestamp := timestamp }

/-- `amend_order`. -/
def amendOrder (b : OrderBook S) (id : OrderId) (newQuantity : Int) (newPrice : Option Int)
    (now : Nat → Timestamp) : Run (Outcome S) := do
  match ← b.idIndex.find id with
  | none => pure ⟨.reject id .unknownOrder, [], b⟩
  | some idx =>
      if newQuantity ≤ 0 then
        pure ⟨.reject id .invalidQuantity, [], b⟩
      else if newPrice.any fun p => ¬ b.inRange p then
        pure ⟨.reject id .priceOutOfRange, [], b⟩
      else
        -- copied: the slot is released before the replacement is added
        let snapshot := (← b.pool.get idx).order
        let priceChanged := newPrice.any fun p => p ≠ snapshot.price
        let quantityIncreased := newQuantity > snapshot.remainingQuantity
        if ¬ priceChanged ∧ ¬ quantityIncreased then
          b.amendInPlace pf id idx snapshot newQuantity
        else
          -- the first clock reading stamps the replacement
          let (_, b) ← b.cancelOrder pf id
          b.addOrder pf (replacement snapshot newQuantity newPrice (now 0)) fun k => now (k + 1)

/-- `reset`: back to empty, keeping capacities. -/
def reset (b : OrderBook S) : Run (OrderBook S) := do
  let bids ← clear b.bids
  let asks ← clear b.asks
  pure { b with bids := bids, asks := asks, pool := b.pool.reset, idIndex := b.idIndex.clear }

end OrderBook

end books

end LightningLob
