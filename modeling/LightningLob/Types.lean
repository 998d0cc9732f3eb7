import Mathlib.Algebra.Ring.Int.Defs
import Mathlib.Algebra.Ring.Nat
import Mathlib.Data.Int.Order.Basic

/-! # Value types of the matching engine

    The plain data of `types.hpp` and `order.hpp`: identifiers, prices and
    quantities in whole ticks and lots, the one-byte enumerations, and the
    records that flow between a book and its callers.

    Identifiers, timestamps and pool handles are unsigned in the source and
    natural numbers here; prices and quantities are signed 64-bit in the
    source and integers here.  Arithmetic that can leave the 64-bit range (the
    level aggregates and the risk manager's positions) goes through
    `Platform.wrap`, see `OrderPool.lean`.  At the engine's own interface ids
    keep the width the source gives them. -/

namespace LightningLob

/-! ## Section 1: Core aliases -/

abbrev OrderId : Type := Nat
abbrev Timestamp : Type := Nat
abbrev SymbolId : Type := Nat
abbrev ParticipantId : Type := Nat

/-- `kInvalidOrderId`: also the empty-slot sentinel of the id index. -/
def kInvalidOrderId : OrderId := 0

/-- `kMarketOrderPrice`: the price field of a Market order is ignored. -/
def kMarketOrderPrice : Int := 0

/-- `kNoParticipant`: an unattributed order never triggers self-trade
    prevention, not even against another unattributed order. -/
def kNoParticipant : ParticipantId := 0

/-! ## Section 2: Enumerations -/

inductive Side where
  | buy
  | sell
  deriving DecidableEq, Repr

/-- The side an incoming order trades against. -/
def Side.opposite : Side → Side
  | .buy => .sell
  | .sell => .buy

@[simp] theorem Side.opposite_ne (s : Side) : s.opposite ≠ s := by
  cases s <;> simp [Side.opposite]

theorem Side.eq_or_opposite (s t : Side) : t = s ∨ t = s.opposite := by
  cases s <;> cases t <;> simp [Side.opposite]

inductive OrderType where
  | limit
  | market
  deriving DecidableEq, Repr

inductive TimeInForce where
  | gtc
  | ioc
  | fok
  deriving DecidableEq, Repr

inductive OrderStatus where
  | new
  | partiallyFilled
  | filled
  | cancelled
  | rejected
  deriving DecidableEq, Repr

inductive RejectReason where
  | none
  | invalidQuantity
  | invalidPrice
  | priceOutOfRange
  | unknownSymbol
  | duplicateOrderId
  | unknownOrder
  | riskMaxOrderSize
  | riskMaxPosition
  | riskRateLimited
  deriving DecidableEq, Repr

/-- What happens when an incoming order meets a resting order of the same
    participant. -/
inductive SelfTradePrevention where
  | none
  | cancelResting
  | cancelIncoming
  | cancelBoth
  deriving DecidableEq, Repr

/-! ## Section 3: Records -/

/-- What a client asks the engine to do: no timestamp yet, and possibly no id
    (zero lets the engine assign one). -/
structure OrderRequest where
  clientOrderId : UInt64 := 0
  symbol : UInt32 := 0
  participantId : UInt32 := 0
  side : Side := .buy
  type : OrderType := .limit
  price : Int := kMarketOrderPrice
  quantity : Int := 0
  timeInForce : TimeInForce := .gtc
  deriving DecidableEq, Repr

/-- What lives inside a book once accepted. -/
structure Order where
  id : OrderId := kInvalidOrderId
  price : Int := kMarketOrderPrice
  /-- Original quantity at entry. -/
  quantity : Int := 0
  /-- Quantity still open. -/
  remainingQuantity : Int := 0
  timestamp : Timestamp := 0
  symbol : SymbolId := 0
  participantId : ParticipantId := kNoParticipant
  side : Side := .buy
  type : OrderType := .limit
  timeInForce : TimeInForce := .gtc
  deriving DecidableEq, Repr

/-- `Order::rests_in_book`. -/
def Order.restsInBook (o : Order) : Bool :=
  o.type = .limit ∧ o.timeInForce = .gtc

/-- An incoming order as matching receives it: wholly open. -/
def Order.opened (o : Order) : Order := { o with remainingQuantity := o.quantity }

@[simp] theorem Order.opened_id (o : Order) : o.opened.id = o.id := rfl

@[simp] theorem Order.opened_quantity (o : Order) : o.opened.quantity = o.quantity := rfl

/-- A fill.  `maker` was resting, `taker` crossed the spread, and the price is
    always the maker's. -/
structure Trade where
  takerOrderId : OrderId
  makerOrderId : OrderId
  symbol : SymbolId
  price : Int
  quantity : Int
  timestamp : Timestamp
  takerSide : Side
  takerParticipantId : ParticipantId
  makerParticipantId : ParticipantId
  deriving DecidableEq, Repr

/-- What the submitter of an order or an amend gets back. -/
structure ExecutionReport where
  orderId : OrderId
  status : OrderStatus
  filledQuantity : Int
  remainingQuantity : Int
  rejectReason : RejectReason
  deriving DecidableEq, Repr

/-- The report every validation failure returns. -/
def ExecutionReport.reject (id : OrderId) (reason : RejectReason) : ExecutionReport :=
  ⟨id, .rejected, 0, 0, reason⟩

/-- One price level of a depth snapshot. -/
structure PriceLevelView where
  price : Int
  totalQuantity : Int
  orderCount : Nat
  deriving DecidableEq, Repr

/-- Result of code that may index outside a container, throw or loop forever:
    `none` is such a fault, never an answer of the program. -/
abbrev Run (α : Type) : Type := Option α

/-! ## Section 4: What the standard library does -/

/-- `std::countr_zero` on a 64-bit value: 64 when no bit is set. -/
def countrZero (n : Nat) : Nat :=
  ((List.range 64).find? fun i => n.testBit i).getD 64

/-- `std::vector<PriceLevelView>::max_size()`, at 24 bytes an entry. -/
def kMaxViews : Nat := (2 ^ 63 - 1) / 24

/-- `std::vector<PriceLevelView>::reserve`: a `std::length_error` past
    `max_size()`. -/
def reserveViews (n : Nat) : Run Unit := if n ≤ kMaxViews then pure () else none

end LightningLob
