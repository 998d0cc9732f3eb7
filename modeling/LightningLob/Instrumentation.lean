import LightningLob.Approach
import LightningLob.Lib.Ghost

/-! # The operations of a book, over instrumented primitives

    The operations of `order_pool.hpp` and of the books once more, with every
    access to the order pool, every insertion into the id index, the level
    found for an indexed order and the "invariant violation" exit where there
    is none left open: a `Probe` says what happens there, and may keep a ghost
    state.  Everything else is as in the plain operations. -/

namespace LightningLob

open LevelStore Ghost

/-! ## Section 1: Probes -/

/-- What an instrumented operation does at its primitive steps, with ghost
    states in `G`. -/
structure Probe (G : Type) where
  /-- `pool[idx]`, read. -/
  get : OrderPool → Nat → Run OrderNode
  /-- `pool[idx]`, written. -/
  update : OrderPool → Nat → (OrderNode → OrderNode) → Run OrderPool
  /-- `pool.acquire(order)`. -/
  acquire : OrderPool → Order → StateT G Option (Nat × OrderPool)
  /-- `pool.release(idx)`. -/
  release : OrderPool → Nat → StateT G Option OrderPool
  /-- `pool.reset()`. -/
  reset : OrderPool → StateT G Option OrderPool
  /-- `id_index.insert(id, idx)`. -/
  insert : IdIndexMap → OrderId → Nat → Run (Bool × IdIndexMap)
  /-- The level found for an indexed order at the price. -/
  found : PriceLevel → Int → Run Unit
  /-- No level was found. -/
  missing : Run Unit

namespace Probe

variable {G : Type} (pr : Probe G)

/-! ## Section 2: Queue operations -/

/-- `pool[link].next = v`, unless the link is null. -/
def setNext (p : OrderPool) (link v : Option Nat) : Run OrderPool :=
  match link with
  | some i => pr.update p i fun n => { n with next := v }
  | none => pure p

/-- `pool[link].prev = v`, unless the link is null. -/
def setPrev (p : OrderPool) (link v : Option Nat) : Run OrderPool :=
  match link with
  | some i => pr.update p i fun n => { n with prev := v }
  | none => pure p

def levelPushBack (pf : Platform) (level : PriceLevel) (pool : OrderPool) (idx : Nat) :
    Run (PriceLevel × OrderPool) := do
  let node ← pr.get pool idx
  let pool ← pr.update pool idx fun n => { n with prev := level.tail, next := none }
  let pool ← pr.setNext pool level.tail (some idx)
  pure ({ level with
      head := if level.tail = none then some idx else level.head
      tail := some idx
      orderCount := level.orderCount + 1
      totalQuantity := pf.wrap (level.totalQuantity + node.order.remainingQuantity) }, pool)

def levelUnlink (level : PriceLevel) (pool : OrderPool) (idx : Nat) :
    Run (PriceLevel × OrderPool) := do
  let node ← pr.get pool idx
  let pool ← pr.setNext pool node.prev node.next
  let pool ← pr.setPrev pool node.next node.prev
  pure ({ level with
      head := if node.prev = none then node.next else level.head
      tail := if node.next = none then node.prev else level.tail
      orderCount := level.orderCount - 1 }, pool)

def levelReduceQuantity (pf : Platform) (level : PriceLevel) (pool : OrderPool) (idx : Nat)
    (qty : Int) : Run (PriceLevel × OrderPool) := do
  let pool ← pr.update pool idx fun n =>
    { n with order := { n.order with remainingQuantity := n.order.remainingQuantity - qty } }
  pure ({ level with totalQuantity := pf.wrap (level.totalQuantity - qty) }, pool)

/-! ## Section 3: Matching -/

def dropMaker (level : PriceLevel) (m : Matching) (idx : Nat) (id : OrderId) :
    StateT G Option (PriceLevel × Matching) := do
  let (level, pool) ← pr.levelUnlink level m.pool idx
  let (_, idIndex) ← m.idIndex.erase id
  let pool ← pr.release pool idx
  pure (level, { m with pool := pool, idIndex := idIndex })

def drainStep (pf : Platform) (policy : SelfTradePrevention) (symbol : SymbolId) (price : Int)
    (now : Nat → Timestamp) (level : PriceLevel) (m : Matching) (makerIdx : Nat) :
    StateT G Option (Bool × PriceLevel × Matching) := do
  let maker := (← pr.get m.pool makerIdx).order
  if selfTrade policy m.taker maker then
    let killed := policy = .cancelIncoming ∨ policy = .cancelBoth
    if policy = .cancelResting ∨ policy = .cancelBoth then
      let level := { level with
        totalQuantity := pf.wrap (level.totalQuantity - maker.remainingQuantity) }
      let (level, m) ← pr.dropMaker level m makerIdx maker.id
      pure (killed, level, m)
    else
      pure (killed, level, m)
  else
    let qty := min m.taker.remainingQuantity maker.remainingQuantity
    let taker := { m.taker with remainingQuantity := m.taker.remainingQuantity - qty }
    let (level, pool) ← pr.levelReduceQuantity pf level m.pool makerIdx qty
    let trade : Trade :=
      ⟨taker.id, maker.id, symbol, price, qty, now m.trades.length, taker.side,
        taker.participantId, maker.participantId⟩
    let m := { m with taker := taker, pool := pool, trades := m.trades ++ [trade] }
    if maker.remainingQuantity - qty = 0 then
      let (level, m) ← pr.dropMaker level m makerIdx maker.id
      pure (false, level, m)
    else
      pure (false, level, m)

def drainLevel (pf : Platform) (policy : SelfTradePrevention) (symbol : SymbolId) (price : Int)
    (now : Nat → Timestamp) :
    Nat → PriceLevel → Matching → StateT G Option (Bool × PriceLevel × Matching)
  | 0, _, _ => fun _ => none
  | fuel + 1, level, m =>
      match level.head with
      | none => pure (false, level, m)
      | some makerIdx =>
          if m.taker.remainingQuantity > 0 then do
            let (killed, level, m) ← pr.drainStep pf policy symbol price now level m makerIdx
            if killed then
              pure (true, level, m)
            else
              drainLevel pf policy symbol price now fuel level m
          else
            pure (false, level, m)

section books

variable {S : Type} [LevelStore S] (pf : Platform)

def matchLoop (policy : SelfTradePrevention) (symbol : SymbolId) (side : Side)
    (now : Nat → Timestamp) : Nat → S → Matching → StateT G Option (Bool × S × Matching)
  | 0, _, _ => fun _ => none
  | fuel + 1, levels, m =>
      if m.taker.remainingQuantity > 0 then do
        match ← front side levels with
        | none => pure (false, levels, m)
        | some (levelPrice, level) =>
            if m.taker.type = .limit ∧ ¬ priceOk m.taker levelPrice then
              pure (false, levels, m)
            else
              let (killed, level, m) ←
                pr.drainLevel pf policy symbol levelPrice now (m.pool.nodes.length + 1) level m
              let levels ← putFront side levels level
              if killed then
                pure (true, levels, m)
              else
                matchLoop policy symbol side now fuel levels m
      else
        pure (false, levels, m)

def matchAgainstBook (b : OrderBook S) (taker : Order) (now : Nat → Timestamp) :
    StateT G Option (Bool × Order × List Trade × OrderBook S) := do
  let side := taker.side.opposite
  let (killed, levels, m) ←
    pr.matchLoop pf b.stpPolicy b.symbol side now (b.pool.nodes.length + 1) (b.levels side)
      { taker := taker, pool := b.pool, idIndex := b.idIndex }
  pure (killed, m.taker, m.trades,
    { b.setLevels side levels with pool := m.pool, idIndex := m.idIndex })

/-! ## Section 4: The public operations -/

def restOrder (b : OrderBook S) (order : Order) : StateT G Option (OrderBook S) := do
  let (idx, pool) ← pr.acquire b.pool order
  let (levels, pool) ← upsert order.side (b.levels order.side) order.price
    fun level => pr.levelPushBack pf level pool idx
  let (_, idIndex) ← pr.insert b.idIndex order.id idx
  pure { b.setLevels order.side levels with pool := pool, idIndex := idIndex }

def conclude (b : OrderBook S) (stpKilled : Bool) (order : Order) (trades : List Trade) :
    StateT G Option (Outcome S) :=
  let filled := order.quantity - order.remainingQuantity
  if order.remainingQuantity = 0 then
    pure ⟨⟨order.id, .filled, filled, 0, .none⟩, trades, b⟩
  else if ¬ stpKilled ∧ order.restsInBook then do
    let b ← pr.restOrder pf b order
    let status := if filled > 0 then .partiallyFilled else .new
    pure ⟨⟨order.id, status, filled, order.remainingQuantity, .none⟩, trades, b⟩
  else
    pure ⟨⟨order.id, .cancelled, filled, 0, .none⟩, trades, b⟩

def matchStep (b : OrderBook S) (order : Order) (now : Nat → Timestamp) :
    StateT G Option (Bool × Order × List Trade × OrderBook S) :=
  if order.type = .market ∨ order.timeInForce = .fok ∨ b.crosses order then
    pr.matchAgainstBook pf b order now
  else
    pure (false, order, [], b)

def execute (b : OrderBook S) (order : Order) (now : Nat → Timestamp) :
    StateT G Option (Outcome S) := do
  let (stpKilled, order, trades, b) ← pr.matchStep pf b order now
  pr.conclude pf b stpKilled order trades

def addOrder (b : OrderBook S) (order : Order) (now : Nat → Timestamp) :
    StateT G Option (Outcome S) := do
  match ← b.rejectReason order with
  | some reason => pure ⟨.reject order.id reason, [], b⟩
  | none =>
      if ← b.fokKilled pf order then
        pure ⟨⟨order.id, .cancelled, 0, 0, .none⟩, [], b⟩
      else
        pr.execute pf b order.opened now

def cancelAt (b : OrderBook S) (id : OrderId) (idx : Nat) :
    StateT G Option (Bool × OrderBook S) := do
  let order := (← pr.get b.pool idx).order
  match ← find order.side (b.levels order.side) order.price with
  | none => do
      pr.missing
      pure (false, b)
  | some level =>
      pr.found level order.price
      let level := { level with
        totalQuantity := pf.wrap (level.totalQuantity - order.remainingQuantity) }
      let (level, pool) ← pr.levelUnlink level b.pool idx
      let levels ← put order.side (b.levels order.side) order.price level
      let pool ← pr.release pool idx
      let (_, idIndex) ← b.idIndex.erase id
      pure (true, { b.setLevels order.side levels with pool := pool, idIndex := idIndex })

def cancelOrder (b : OrderBook S) (id : OrderId) : StateT G Option (Bool × OrderBook S) := do
  match ← b.idIndex.find id with
  | none => pure (false, b)
  | some idx => pr.cancelAt pf b id idx

def amendInPlace (b : OrderBook S) (id : OrderId) (idx : Nat) (snapshot : Order)
    (newQuantity : Int) : Run (Outcome S) := do
  let level ← deref snapshot.side (b.levels snapshot.side) snapshot.price
  pr.found level snapshot.price
  let (level, pool) ← pr.levelReduceQuantity pf level b.pool idx
    (snapshot.remainingQuantity - newQuantity)
  let levels ← write snapshot.side (b.levels snapshot.side) snapshot.price level
  pure ⟨⟨id, .new, 0, newQuantity, .none⟩, [],
    { b.setLevels snapshot.side levels with pool := pool }⟩

def amendOrder (b : OrderBook S) (id : OrderId) (newQuantity : Int) (newPrice : Option Int)
    (now : Nat → Timestamp) : StateT G Option (Outcome S) := do
  match ← b.idIndex.find id with
  | none => pure ⟨.reject id .unknownOrder, [], b⟩
  | some idx =>
      if newQuantity ≤ 0 then
        pure ⟨.reject id .invalidQuantity, [], b⟩
      else if newPrice.any fun p => ¬ b.inRange p then
        pure ⟨.reject id .priceOutOfRange, [], b⟩
      else
        let snapshot := (← pr.get b.pool idx).order
        let priceChanged := newPrice.any fun p => p ≠ snapshot.price
        let quantityIncreased := newQuantity > snapshot.remainingQuantity
        if ¬ priceChanged ∧ ¬ quantityIncreased then
          pr.amendInPlace pf b id idx snapshot newQuantity
        else
          let (_, b) ← pr.cancelOrder pf b id
          pr.addOrder pf b (OrderBook.replacement snapshot newQuantity newPrice (now 0))
            fun k => now (k + 1)

def resetBook (b : OrderBook S) : StateT G Option (OrderBook S) := do
  let bids ← clear b.bids
  let asks ← clear b.asks
  let pool ← pr.reset b.pool
  pure { b with bids := bids, asks := asks, pool := pool, idIndex := b.idIndex.clear }

/-- One call on a book. -/
def call (b : OrderBook S) : Call × Clock → StateT G Option (Reply × OrderBook S)
  | (.add order, now) => do
      let out ← pr.addOrder pf b order now
      pure (⟨.report out.report, out.trades⟩, out.book)
  | (.cancel id, _) => do
      let (cancelled, b) ← pr.cancelOrder pf b id
      pure (⟨.flag cancelled, []⟩, b)
  | (.amend id newQuantity newPrice, now) => do
      let out ← pr.amendOrder pf b id newQuantity newPrice now
      pure (⟨.report out.report, out.trades⟩, out.book)
  | (.reset, _) => do
      let b ← pr.resetBook b
      pure (⟨.done, []⟩, b)

end books

/-! ## Section 5: The plain primitives -/

/-- The primitives of the plain operations. -/
def plain (G : Type) (pf : Platform) : Probe G where
  get := OrderPool.get
  update := OrderPool.update
  acquire p order := liftM (p.acquire pf order)
  release p idx := liftM (p.release pf idx)
  reset p := pure p.reset
  insert := IdIndexMap.insert
  found _ _ := pure ()
  missing := pure ()

section plain

variable {S : Type} [LevelStore S] {pf : Platform}

theorem plain_dropMaker (level : PriceLevel) (m : Matching) (idx : Nat) (id : OrderId) :
    Same ((plain G pf).dropMaker level m idx id) (LightningLob.dropMaker pf level m idx id) :=
  .bind (.lift _) fun _ => .bind (.lift _) fun _ => .bind (.lift _) fun _ => .pure _

theorem plain_drainStep (policy : SelfTradePrevention) (symbol : SymbolId) (price : Int)
    (now : Nat → Timestamp) (level : PriceLevel) (m : Matching) (makerIdx : Nat) :
    Same ((plain G pf).drainStep pf policy symbol price now level m makerIdx)
      (LightningLob.drainStep pf policy symbol price now level m makerIdx) := by
  refine .bind (.lift _) fun node => ?_
  dsimp only
  split
  · split
    · exact .bind (plain_dropMaker _ _ _ _) fun _ => .pure _
    · exact .pure _
  · refine .bind (.lift _) fun ⟨level', pool'⟩ => ?_
    dsimp only
    split
    · exact .bind (plain_dropMaker _ _ _ _) fun _ => .pure _
    · exact .pure _

theorem plain_drainLevel (policy : SelfTradePrevention) (symbol : SymbolId) (price : Int)
    (now : Nat → Timestamp) (fuel : Nat) (level : PriceLevel) (m : Matching) :
    Same ((plain G pf).drainLevel pf policy symbol price now fuel level m)
      (LightningLob.drainLevel pf policy symbol price now fuel level m) := by
  induction fuel generalizing level m with
  | zero => exact .none
  | succ fuel ih =>
    unfold drainLevel LightningLob.drainLevel
    cases level.head with
    | none => exact .pure _
    | some makerIdx =>
      dsimp only
      split
      · refine .bind (plain_drainStep _ _ _ _ _ _ _) fun r => ?_
        obtain ⟨killed, level', m'⟩ := r
        cases killed with
        | true => exact .pure _
        | false => exact ih level' m'
      · exact .pure _

theorem plain_matchLoop (policy : SelfTradePrevention) (symbol : SymbolId) (side : Side)
    (now : Nat → Timestamp) (fuel : Nat) (levels : S) (m : Matching) :
    Same ((plain G pf).matchLoop pf policy symbol side now fuel levels m)
      (LightningLob.matchLoop pf policy symbol side now fuel levels m) := by
  induction fuel generalizing levels m with
  | zero => exact .none
  | succ fuel ih =>
    unfold matchLoop LightningLob.matchLoop
    split
    · refine .bind (.lift _) fun best => ?_
      cases best with
      | none => exact .pure _
      | some best =>
        dsimp only
        split
        · exact .pure _
        · refine .bind (plain_drainLevel _ _ _ _ _ _ _) fun r => ?_
          obtain ⟨killed, level', m'⟩ := r
          refine .bind (.lift _) fun levels' => ?_
          cases killed with
          | true => exact .pure _
          | false => exact ih levels' m'
    · exact .pure _

theorem plain_addOrder (b : OrderBook S) (order : Order) (now : Nat → Timestamp) :
    Same ((plain G pf).addOrder pf b order now) (b.addOrder pf order now) := by
  refine .bind (.lift _) fun reason => ?_
  cases reason with
  | some reason => exact .pure _
  | none =>
    refine .bind (.lift _) fun killed => ?_
    cases killed with
    | true => exact .pure _
    | false =>
      refine .bind ?_ fun ⟨stpKilled, left, trades, b'⟩ => ?_
      · unfold matchStep OrderBook.matchStep
        split
        · exact .bind (plain_matchLoop _ _ _ _ _ _ _) fun _ => .pure _
        · exact .pure _
      · unfold conclude OrderBook.conclude
        dsimp only
        split
        · exact .pure _
        · split
          · refine .bind ?_ fun _ => .pure _
            exact .bind (.lift _) fun _ => .bind (.lift _) fun _ => .bind (.lift _) fun _ => .pure _
          · exact .pure _

theorem plain_cancelOrder (b : OrderBook S) (id : OrderId) :
    Same ((plain G pf).cancelOrder pf b id) (b.cancelOrder pf id) := by
  refine .bind (.lift _) fun found => ?_
  cases found with
  | none => exact .pure _
  | some idx =>
    refine .bind (.lift _) fun node => .bind (.lift _) fun level => ?_
    cases level with
    | none => exact .pure _
    | some level =>
      refine .check rfl ?_
      exact .bind (.lift _) fun _ => .bind (.lift _) fun _ => .bind (.lift _) fun _ =>
        .bind (.lift _) fun _ => .pure _

theorem plain_amendOrder (b : OrderBook S) (id : OrderId) (newQuantity : Int)
    (newPrice : Option Int) (now : Nat → Timestamp) :
    Same ((plain G pf).amendOrder pf b id newQuantity newPrice now)
      (b.amendOrder pf id newQuantity newPrice now) := by
  refine .bind (.lift _) fun found => ?_
  cases found with
  | none => exact .pure _
  | some idx =>
    dsimp only
    split
    · exact .pure _
    split
    · exact .pure _
    refine .bind (.lift _) fun node => ?_
    split
    · exact .lift _
    · exact .bind (plain_cancelOrder _ _) fun _ => plain_addOrder _ _ _

/-- **With the plain primitives, an instrumented call is the plain call**, on
    every book. -/
theorem plain_call (b : OrderBook S) (c : Call) (now : Clock) :
    Same ((plain G pf).call pf b (c, now)) (b.call pf (c, now)) := by
  cases c with
  | add order => exact .bind (plain_addOrder _ _ _) fun _ => .pure _
  | cancel id => exact .bind (plain_cancelOrder _ _) fun _ => .pure _
  | amend id newQuantity newPrice => exact .bind (plain_amendOrder _ _ _ _ _) fun _ => .pure _
  | reset =>
    refine .bind ?_ fun _ => .pure _
    exact .bind (.lift _) fun _ => .bind (.lift _) fun _ => .pure _

end plain

end Probe

end LightningLob
