import LightningLob.Types

/-! # Order pool and intrusive level queues

    `order_pool.hpp`: the pool of order slots with its free-list stack, and
    the three operations on the doubly linked FIFO queue of a price level.
    All three books share this code.

    Pool handles are `uint32_t` in the source with `kNullIndex = 2^32 - 1` as
    the null link.  Here a handle is a natural number and the null link is
    `none`, which is the source's behaviour while fewer than `2^32 - 1` orders
    are live at once.  An access outside the pool is a fault. -/

namespace LightningLob

/-! ## Section 1: What the C++ implementation leaves open -/

/-- The parts of the C++ implementation the source does not fix: the value of
    signed 64-bit aggregates past their range, and how much a `std::vector`
    allocates. -/
structure Platform where
  /-- The value a 64-bit aggregate takes when its exact value is the argument. -/
  wrap : Int → Int
  wrap_zero : wrap 0 = 0
  wrap_add : ∀ a b, wrap (wrap a + b) = wrap (a + b)
  wrap_le : ∀ a, 0 ≤ a → wrap a ≤ a
  /-- Capacity after `reserve n` had to reallocate. -/
  allocate : Nat → Nat
  le_allocate : ∀ n, n ≤ allocate n
  /-- Capacity after `push_back` on a full vector of the given capacity. -/
  grow : Nat → Nat
  lt_grow : ∀ n, n < grow n

/-- Quantities read as exact integers. -/
def Platform.exact : Platform where
  wrap := id
  wrap_zero := rfl
  wrap_add := fun _ _ => rfl
  wrap_le := fun _ _ => le_rfl
  allocate := id
  le_allocate := fun n => Nat.le_refl n
  grow := fun n => 2 * n + 1
  lt_grow := fun n => by omega

/-- Two's complement 64-bit aggregates. -/
def Platform.int64 : Platform where
  wrap := fun x => Int.bmod x (2 ^ 64)
  wrap_zero := by decide
  wrap_add := fun _ _ => Int.bmod_add_bmod
  wrap_le := fun a ha => by
    rw [Int.bmod_def]
    split <;> omega
  allocate := id
  le_allocate := fun n => Nat.le_refl n
  grow := fun n => 2 * n + 1
  lt_grow := fun n => by omega

/-- `std::vector::reserve` on a vector of capacity `cap`. -/
def Platform.reserve (pf : Platform) (cap n : Nat) : Nat :=
  if n ≤ cap then cap else pf.allocate n

/-- Capacity after `std::vector::push_back` on a vector of `size` elements. -/
def Platform.pushBack (pf : Platform) (cap size : Nat) : Nat :=
  if size < cap then cap else pf.grow cap

/-! ## Section 2: Slots, levels and the pool -/

/-- A pool slot: an order and its links within the level that owns it. -/
structure OrderNode where
  order : Order := {}
  prev : Option Nat := none
  next : Option Nat := none
  deriving DecidableEq, Repr

/-- A price level: aggregates, and the ends of its FIFO queue. -/
structure PriceLevel where
  price : Int := 0
  totalQuantity : Int := 0
  orderCount : Nat := 0
  head : Option Nat := none
  tail : Option Nat := none
  deriving DecidableEq, Repr

/-- `PriceLevel::empty`. -/
def PriceLevel.empty (l : PriceLevel) : Bool := l.orderCount = 0

/-- `PriceLevel::clear_orders`: back to no orders, keeping the price. -/
def PriceLevel.clearOrders (l : PriceLevel) : PriceLevel := { price := l.price }

/-- The slots, the stack of free slots (top first) and the capacities the two
    vectors have reserved. -/
structure OrderPool where
  nodes : List OrderNode := []
  freeList : List Nat := []
  nodesCapacity : Nat := 0
  freeCapacity : Nat := 0
  deriving DecidableEq, Repr

namespace OrderPool

/-- The constructor: both vectors reserve the hint. -/
def create (pf : Platform) (capacityHint : Nat) : OrderPool where
  nodesCapacity := pf.reserve 0 capacityHint
  freeCapacity := pf.reserve 0 capacityHint

/-- `operator[]`. -/
def get (p : OrderPool) (idx : Nat) : Run OrderNode := p.nodes[idx]?

/-- A write through `operator[]`. -/
def update (p : OrderPool) (idx : Nat) (f : OrderNode → OrderNode) : Run OrderPool :=
  (p.get idx).map fun n => { p with nodes := p.nodes.set idx (f n) }

/-- `pool[link].next = v`, unless the link is null. -/
def setNext (p : OrderPool) (link v : Option Nat) : Run OrderPool :=
  match link with
  | some i => p.update i fun n => { n with next := v }
  | none => pure p

/-- `pool[link].prev = v`, unless the link is null. -/
def setPrev (p : OrderPool) (link v : Option Nat) : Run OrderPool :=
  match link with
  | some i => p.update i fun n => { n with prev := v }
  | none => pure p

/-- `acquire`: reuse the most recently released slot, else grow the pool and
    keep the free list's capacity in step with it. -/
def acquire (pf : Platform) (p : OrderPool) (order : Order) : Run (Nat × OrderPool) :=
  match p.freeList with
  | idx :: rest => do
      let p ← { p with freeList := rest }.update idx fun _ => { order := order }
      pure (idx, p)
  | [] =>
      -- so that a later `release` of any slot never reallocates
      let cap := pf.pushBack p.nodesCapacity p.nodes.length
      pure (p.nodes.length,
        { p with
          nodes := p.nodes ++ [{ order := order }]
          nodesCapacity := cap
          freeCapacity := pf.reserve p.freeCapacity cap })

/-- `release`: push the slot on the free list. -/
def release (pf : Platform) (p : OrderPool) (idx : Nat) : Run OrderPool :=
  if idx < p.nodes.length then
    some { p with
      freeList := idx :: p.freeList
      freeCapacity := pf.pushBack p.freeCapacity p.freeList.length }
  else
    none

/-- `reset`: no live orders, capacities kept. -/
def reset (p : OrderPool) : OrderPool :=
  { p with nodes := [], freeList := [] }

end OrderPool

/-! ## Section 3: Queue operations -/

/-- `level_push_back`: append slot `idx` at the tail of the level's queue. -/
def levelPushBack (pf : Platform) (level : PriceLevel) (pool : OrderPool) (idx : Nat) :
    Run (PriceLevel × OrderPool) := do
  let node ← pool.get idx
  let pool ← pool.update idx fun n => { n with prev := level.tail, next := none }
  let pool ← pool.setNext level.tail (some idx)
  pure ({ level with
      head := if level.tail = none then some idx else level.head
      tail := some idx
      orderCount := level.orderCount + 1
      totalQuantity := pf.wrap (level.totalQuantity + node.order.remainingQuantity) }, pool)

/-- `level_unlink`: take slot `idx` out of the level's queue.  Leaves
    `total_quantity` to the caller. -/
def levelUnlink (level : PriceLevel) (pool : OrderPool) (idx : Nat) :
    Run (PriceLevel × OrderPool) := do
  let node ← pool.get idx
  -- a null neighbour means the slot was the head or the tail
  let pool ← pool.setNext node.prev node.next
  let pool ← pool.setPrev node.next node.prev
  pure ({ level with
      head := if node.prev = none then node.next else level.head
      tail := if node.next = none then node.prev else level.tail
      orderCount := level.orderCount - 1 }, pool)

/-- `level_reduce_quantity`: debit `qty` from the order and from its level. -/
def levelReduceQuantity (pf : Platform) (level : PriceLevel) (pool : OrderPool) (idx : Nat)
    (qty : Int) : Run (PriceLevel × OrderPool) := do
  let pool ← pool.update idx fun n =>
    { n with order := { n.order with remainingQuantity := n.order.remainingQuantity - qty } }
  pure ({ level with totalQuantity := pf.wrap (level.totalQuantity - qty) }, pool)

end LightningLob
