import LightningLob.OrderPool
import Mathlib.Logic.Function.Basic

/-! # Pre-trade risk checks

    `risk_manager.hpp` and `risk_manager.cpp`: limits, net position and the
    rate-limit window of every (symbol, participant) pair.  Limits restrict a
    pair only once they are set; positions are tracked for every fill.

    Positions are signed 64-bit, so their arithmetic goes through
    `Platform.wrap`.  Timestamps are unsigned 64-bit, so their difference is
    taken modulo `2 ^ 64`.  The order counter and its limit keep their 32 bits. -/

namespace LightningLob

/-! ## Section 1: State -/

/-- `SymbolRiskLimits`; the defaults are the largest values of the types. -/
structure SymbolRiskLimits where
  maxPosition : Int := 2 ^ 63 - 1
  maxOrderSize : Int := 2 ^ 63 - 1
  maxOrdersPerSecond : UInt32 := 4294967295
  deriving DecidableEq, Repr

/-- `SymbolParticipantState`. -/
structure SymbolParticipantState where
  limits : SymbolRiskLimits := {}
  netPosition : Int := 0
  windowStart : Timestamp := 0
  ordersInWindow : UInt32 := 0
  deriving DecidableEq, Repr

/-- The map of states by packed key.  It is looked up and written, never
    iterated. -/
structure RiskManager where
  state : Nat → Option SymbolParticipantState := fun _ => none

/-- `kRateLimitWindowNs`: one second. -/
def kRateLimitWindowNs : Nat := 1000000000

/-- `pack_key`: the symbol in the high half, the participant in the low. -/
def packKey (symbol : SymbolId) (participant : ParticipantId) : Nat :=
  symbol <<< 32 ||| participant

/-! ## Section 2: The checks on one pair -/

/-- The quantity as it moves the position of the side. -/
def signedQuantity (pf : Platform) (side : Side) (quantity : Int) : Int :=
  match side with
  | .buy => quantity
  | .sell => pf.wrap (-quantity)

namespace SymbolParticipantState

/-- The position if the order were filled whole. -/
def prospective (pf : Platform) (st : SymbolParticipantState) (side : Side) (quantity : Int) :
    Int :=
  pf.wrap (st.netPosition + signedQuantity pf side quantity)

/-- The window the time falls in: a fresh one when the last is over. -/
def rollWindow (st : SymbolParticipantState) (now : Timestamp) : SymbolParticipantState :=
  -- unsigned subtraction: a time before the window start counts as long after it
  if ((now : Int) - st.windowStart) % 2 ^ 64 ≥ kRateLimitWindowNs then
    { st with windowStart := now, ordersInWindow := 0 }
  else
    st

/-- The three checks, in order; an order that passes them is counted. -/
def check (pf : Platform) (st : SymbolParticipantState) (side : Side) (quantity : Int)
    (now : Timestamp) : RejectReason × SymbolParticipantState :=
  if quantity > st.limits.maxOrderSize then
    (.riskMaxOrderSize, st)
  else if st.prospective pf side quantity > st.limits.maxPosition ∨
      st.prospective pf side quantity < pf.wrap (-st.limits.maxPosition) then
    (.riskMaxPosition, st)
  else
    let st := st.rollWindow now
    if st.ordersInWindow ≥ st.limits.maxOrdersPerSecond then
      (.riskRateLimited, st)
    else
      (.none, { st with ordersInWindow := st.ordersInWindow + 1 })

end SymbolParticipantState

/-! ## Section 3: The operations -/

namespace RiskManager

/-- The state of a pair, default-constructed if there is none. -/
def entry (rm : RiskManager) (symbol : SymbolId) (participant : ParticipantId) :
    SymbolParticipantState :=
  (rm.state (packKey symbol participant)).getD {}

/-- A write through `state_[key]`. -/
def store (rm : RiskManager) (symbol : SymbolId) (participant : ParticipantId)
    (st : SymbolParticipantState) : RiskManager :=
  { state := Function.update rm.state (packKey symbol participant) (some st) }

/-- `set_limits`: keeps the position and the window of the pair. -/
def setLimits (rm : RiskManager) (symbol : SymbolId) (participant : ParticipantId)
    (limits : SymbolRiskLimits) : RiskManager :=
  rm.store symbol participant { rm.entry symbol participant with limits := limits }

/-- `limits_for`. -/
def limitsFor (rm : RiskManager) (symbol : SymbolId) (participant : ParticipantId) :
    SymbolRiskLimits :=
  (rm.entry symbol participant).limits

/-- `check_new_order`: a pair without an entry is unrestricted. -/
def checkNewOrder (pf : Platform) (rm : RiskManager) (symbol : SymbolId)
    (participant : ParticipantId) (side : Side) (quantity : Int) (now : Timestamp) :
    RejectReason × RiskManager :=
  match rm.state (packKey symbol participant) with
  | none => (.none, rm)
  | some st =>
      let (reason, st) := st.check pf side quantity now
      (reason, rm.store symbol participant st)

/-- `on_fill`: creates the entry of a pair at its first fill. -/
def onFill (pf : Platform) (rm : RiskManager) (symbol : SymbolId) (participant : ParticipantId)
    (side : Side) (filledQuantity : Int) : RiskManager :=
  let st := rm.entry symbol participant
  rm.store symbol participant
    { st with netPosition := pf.wrap (st.netPosition + signedQuantity pf side filledQuantity) }

/-- `position`. -/
def position (rm : RiskManager) (symbol : SymbolId) (participant : ParticipantId) : Int :=
  (rm.entry symbol participant).netPosition

end RiskManager

end LightningLob
