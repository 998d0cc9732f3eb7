import LightningLob.Approach
import LightningLob.RiskManager

/-! # The matching engine

    `matching_engine.hpp`: one book for each registered symbol, the risk
    manager in front of them, and the counter that gives ids to orders that
    come without one.

    A book hands every trade to the engine's `on_trade` while it is matching.
    Matching does not read the risk manager, so the trades of a call are
    credited here in order once the call is over.  `k` is the template
    parameter `BookT`. -/

namespace LightningLob

/-! ## Section 1: State -/

structure MatchingEngine (k : Approach) where
  books : SymbolId → Option k.Book := fun _ => none
  riskManager : RiskManager := {}
  nextOrderId : UInt64 := 1

/-- The order a request becomes, wholly open. -/
def OrderRequest.toOrder (request : OrderRequest) (id : OrderId) (receiptTime : Timestamp) :
    Order where
  id := id
  price := request.price
  quantity := request.quantity
  remainingQuantity := request.quantity
  timestamp := receiptTime
  symbol := request.symbol.toNat
  participantId := request.participantId.toNat
  side := request.side
  type := request.type
  timeInForce := request.timeInForce

/-- `on_trade`: the taker's leg is credited first, then the maker's on the
    other side. -/
def RiskManager.onTrade (pf : Platform) (rm : RiskManager) (trade : Trade) : RiskManager :=
  let rm := rm.onFill pf trade.symbol trade.takerParticipantId trade.takerSide trade.quantity
  rm.onFill pf trade.symbol trade.makerParticipantId trade.takerSide.opposite trade.quantity

namespace MatchingEngine

variable {k : Approach} (pf : Platform)

/-! ## Section 2: The operations -/

/-- `add_symbol`: a symbol that has a book keeps it.  A constructor that
    throws registers nothing. -/
def addSymbol (e : MatchingEngine k) (symbol : SymbolId) (minPrice maxPrice : Int)
    (orderCapacityHint : Nat) (stpPolicy : SelfTradePrevention) : MatchingEngine k :=
  match e.books symbol with
  | some _ => e
  | none =>
      match k.create pf symbol minPrice maxPrice orderCapacityHint stpPolicy with
      | none => e
      | some b => { e with books := Function.update e.books symbol (some b) }

/-- One call on the book of a symbol, its trades routed to `on_trade`. -/
def onBook (e : MatchingEngine k) (symbol : SymbolId) (b : k.Book) (c : Call) (now : Clock) :
    Run (Reply × MatchingEngine k) := do
  let (reply, b) ← b.call pf (c, now)
  pure (reply,
    { e with
      books := Function.update e.books symbol (some b)
      riskManager := reply.trades.foldl (RiskManager.onTrade pf) e.riskManager })

/-- The id of a request's order, and the counter after it. -/
def assignId (e : MatchingEngine k) (request : OrderRequest) : UInt64 × UInt64 :=
  if request.clientOrderId ≠ 0 then
    (request.clientOrderId, e.nextOrderId)
  else
    (e.nextOrderId, e.nextOrderId + 1)

/-- `submit_order`: risk-rejected orders never reach the book. -/
def submitOrder (e : MatchingEngine k) (request : OrderRequest) (now : Clock) :
    Run (Reply × MatchingEngine k) :=
  match e.books request.symbol.toNat with
  | none => pure (⟨.report (.reject request.clientOrderId.toNat .unknownSymbol), []⟩, e)
  | some b =>
      let (id, nextOrderId) := e.assignId request
      -- the first clock reading of the call is the receipt time
      let (reason, riskManager) := e.riskManager.checkNewOrder pf request.symbol.toNat
        request.participantId.toNat request.side request.quantity (now 0)
      let e := { e with riskManager := riskManager, nextOrderId := nextOrderId }
      if reason ≠ .none then
        pure (⟨.report (.reject id.toNat reason), []⟩, e)
      else
        e.onBook pf request.symbol.toNat b (.add (request.toOrder id.toNat (now 0)))
          fun i => now (i + 1)

/-- `cancel_order`. -/
def cancelOrder (e : MatchingEngine k) (symbol : SymbolId) (id : OrderId) (now : Clock) :
    Run (Reply × MatchingEngine k) :=
  match e.books symbol with
  | none => pure (⟨.flag false, []⟩, e)
  | some b => e.onBook pf symbol b (.cancel id) now

/-- `amend_order`: goes to the book without a risk check. -/
def amendOrder (e : MatchingEngine k) (symbol : SymbolId) (id : OrderId) (newQuantity : Int)
    (newPrice : Option Int) (now : Clock) : Run (Reply × MatchingEngine k) :=
  match e.books symbol with
  | none => pure (⟨.report (.reject id .unknownSymbol), []⟩, e)
  | some b => e.onBook pf symbol b (.amend id newQuantity newPrice) now

/-- `reset_symbol`: empties the book, keeps the risk state. -/
def resetSymbol (e : MatchingEngine k) (symbol : SymbolId) (now : Clock) :
    Run (Reply × MatchingEngine k) :=
  match e.books symbol with
  | none => pure (⟨.done, []⟩, e)
  | some b => e.onBook pf symbol b .reset now

/-- `set_risk_limits`. -/
def setRiskLimits (e : MatchingEngine k) (symbol : SymbolId) (participant : ParticipantId)
    (limits : SymbolRiskLimits) : MatchingEngine k :=
  { e with riskManager := e.riskManager.setLimits symbol participant limits }

end MatchingEngine

/-! ## Section 3: Calls -/

/-- A call on the engine. -/
inductive EngineCall where
  | addSymbol (symbol : UInt32) (minPrice maxPrice : Int) (orderCapacityHint : Nat)
      (stpPolicy : SelfTradePrevention)
  | submit (request : OrderRequest)
  | cancel (symbol : UInt32) (id : OrderId)
  | amend (symbol : UInt32) (id : OrderId) (newQuantity : Int) (newPrice : Option Int)
  | resetSymbol (symbol : UInt32)
  | setRiskLimits (symbol participant : UInt32) (limits : SymbolRiskLimits)
  deriving DecidableEq, Repr

/-- One call on the engine. -/
def MatchingEngine.call {k : Approach} (pf : Platform) (e : MatchingEngine k) :
    EngineCall × Clock → Run (Reply × MatchingEngine k)
  | (.addSymbol symbol minPrice maxPrice orderCapacityHint stpPolicy, _) =>
      pure (⟨.done, []⟩, e.addSymbol pf symbol.toNat minPrice maxPrice orderCapacityHint stpPolicy)
  | (.submit request, now) => e.submitOrder pf request now
  | (.cancel symbol id, now) => e.cancelOrder pf symbol.toNat id now
  | (.amend symbol id newQuantity newPrice, now) =>
      e.amendOrder pf symbol.toNat id newQuantity newPrice now
  | (.resetSymbol symbol, now) => e.resetSymbol pf symbol.toNat now
  | (.setRiskLimits symbol participant limits, _) =>
      pure (⟨.done, []⟩, e.setRiskLimits symbol.toNat participant.toNat limits)

end LightningLob
