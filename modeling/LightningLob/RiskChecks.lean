import LightningLob.Lib.Runs
import LightningLob.RiskManager

/-! # Runs of the risk manager

    The state of a pair is changed by operations on that pair only, because
    the packed key is lossless.  A pair whose limits were never set keeps the
    default limits; what these still refuse is stated exactly. -/

namespace LightningLob

/-! ## Section 1: The entries of the map -/

/-- `pack_key` is lossless on 32-bit participants. -/
theorem packKey_inj {s t p q : Nat} (hp : p < 2 ^ 32) (hq : q < 2 ^ 32) :
    packKey s p = packKey t q ↔ s = t ∧ p = q := by
  unfold packKey
  rw [← Nat.shiftLeft_add_eq_or_of_lt hp, ← Nat.shiftLeft_add_eq_or_of_lt hq,
    Nat.shiftLeft_eq, Nat.shiftLeft_eq]
  omega

namespace RiskManager

section entries

variable {rm : RiskManager} {s t p q : Nat} {st : SymbolParticipantState}

@[simp] theorem store_entry_self : (rm.store s p st).entry s p = st := by
  simp [entry, store]

@[simp] theorem store_state_self : (rm.store s p st).state (packKey s p) = some st := by
  simp [store]

/-- Writing one pair leaves the state of every other as it was. -/
theorem store_state_of_ne (hp : p < 2 ^ 32) (hq : q < 2 ^ 32) (h : ¬ (t = s ∧ q = p)) :
    (rm.store s p st).state (packKey t q) = rm.state (packKey t q) := by
  have hne : packKey t q ≠ packKey s p := fun he => h ((packKey_inj hq hp).mp he)
  simp [store, Function.update_of_ne hne]

theorem store_entry_of_ne (hp : p < 2 ^ 32) (hq : q < 2 ^ 32) (h : ¬ (t = s ∧ q = p)) :
    (rm.store s p st).entry t q = rm.entry t q := by
  unfold entry
  rw [store_state_of_ne hp hq h]

end entries

/-- An entry that is there is the one read back. -/
theorem entry_of_state {rm : RiskManager} {s p : Nat} {st : SymbolParticipantState}
    (h : rm.state (packKey s p) = some st) : rm.entry s p = st := by
  simp [entry, h]

end RiskManager

/-! ## Section 2: The checks, case by case -/

namespace SymbolParticipantState

variable {pf : Platform} {st : SymbolParticipantState} {side : Side} {quantity : Int}
  {now : Timestamp}

@[simp] theorem rollWindow_limits (st : SymbolParticipantState) (now : Timestamp) :
    (st.rollWindow now).limits = st.limits := by
  unfold rollWindow
  split <;> rfl

@[simp] theorem rollWindow_netPosition (st : SymbolParticipantState) (now : Timestamp) :
    (st.rollWindow now).netPosition = st.netPosition := by
  unfold rollWindow
  split <;> rfl

/-- The limits and the position let the order through. -/
def Within (pf : Platform) (st : SymbolParticipantState) (side : Side) (quantity : Int) : Prop :=
  quantity ≤ st.limits.maxOrderSize ∧ st.prospective pf side quantity ≤ st.limits.maxPosition ∧
    pf.wrap (-st.limits.maxPosition) ≤ st.prospective pf side quantity

/-- **Inversion of the check**: refused by size or position with nothing
    changed, refused by rate with at most the window renewed, or passed and
    counted. -/
theorem check_cases (pf : Platform) (st : SymbolParticipantState) (side : Side) (quantity : Int)
    (now : Timestamp) :
    (¬ st.Within pf side quantity ∧ (st.check pf side quantity now).1 ≠ .none ∧
      (st.check pf side quantity now).2 = st) ∨
    (st.Within pf side quantity ∧
      st.limits.maxOrdersPerSecond ≤ (st.rollWindow now).ordersInWindow ∧
      st.check pf side quantity now = (.riskRateLimited, st.rollWindow now)) ∨
    (st.Within pf side quantity ∧
      (st.rollWindow now).ordersInWindow < st.limits.maxOrdersPerSecond ∧
      st.check pf side quantity now = (.none,
        { st.rollWindow now with ordersInWindow := (st.rollWindow now).ordersInWindow + 1 })) := by
  unfold check Within
  by_cases hsize : quantity > st.limits.maxOrderSize
  · left
    simp [hsize, Int.not_le.mpr hsize]
  by_cases hpos : st.prospective pf side quantity > st.limits.maxPosition ∨
      st.prospective pf side quantity < pf.wrap (-st.limits.maxPosition)
  · left
    simp only [if_neg hsize, if_pos hpos]
    refine ⟨?_, by simp, trivial⟩
    rcases hpos with hpos | hpos <;> omega
  right
  rw [not_or] at hpos
  have hwithin : quantity ≤ st.limits.maxOrderSize ∧
      st.prospective pf side quantity ≤ st.limits.maxPosition ∧
      pf.wrap (-st.limits.maxPosition) ≤ st.prospective pf side quantity := by omega
  simp only [if_neg hsize, if_neg (not_or.mpr hpos), rollWindow_limits]
  by_cases hrate : (st.rollWindow now).ordersInWindow ≥ st.limits.maxOrdersPerSecond
  · left
    exact ⟨hwithin, hrate, if_pos hrate⟩
  · right
    exact ⟨hwithin, UInt32.not_le.mp hrate, if_neg hrate⟩

/-- The check passes exactly when the limits allow the order and the window
    has room. -/
theorem check_eq_none_iff : (st.check pf side quantity now).1 = .none ↔
    st.Within pf side quantity ∧
      (st.rollWindow now).ordersInWindow < st.limits.maxOrdersPerSecond := by
  rcases check_cases pf st side quantity now with ⟨hw, hne, -⟩ | ⟨-, hle, heq⟩ | ⟨hw, hlt, heq⟩
  · constructor
    · intro h
      exact absurd h hne
    · intro h
      exact absurd h.1 hw
  · rw [heq]
    simp [UInt32.not_lt.mpr hle]
  · rw [heq]
    simp [hw, hlt]

/-- No check moves the limits or the position. -/
theorem check_keeps (pf : Platform) (st : SymbolParticipantState) (side : Side) (quantity : Int)
    (now : Timestamp) : (st.check pf side quantity now).2.limits = st.limits ∧
      (st.check pf side quantity now).2.netPosition = st.netPosition := by
  rcases check_cases pf st side quantity now with ⟨-, -, heq⟩ | ⟨-, -, heq⟩ | ⟨-, -, heq⟩ <;>
    rw [heq] <;> simp

end SymbolParticipantState

/-! ## Section 3: What each operation does to a pair -/

namespace RiskManager

section operations

variable {pf : Platform} {rm : RiskManager} {s t p q : Nat}

/-- A check writes at most the window of its own pair. -/
theorem checkNewOrder_keeps (pf : Platform) (hp : p < 2 ^ 32) (hq : q < 2 ^ 32) (side : Side)
    (quantity : Int) (now : Timestamp) :
    ((rm.checkNewOrder pf s p side quantity now).2.entry t q).limits = (rm.entry t q).limits ∧
      ((rm.checkNewOrder pf s p side quantity now).2.entry t q).netPosition =
        (rm.entry t q).netPosition := by
  unfold checkNewOrder
  cases hst : rm.state (packKey s p) with
  | none => exact ⟨rfl, rfl⟩
  | some st =>
    by_cases hpair : t = s ∧ q = p
    · obtain ⟨rfl, rfl⟩ := hpair
      have hkeeps := st.check_keeps pf side quantity now
      rw [entry_of_state hst]
      simpa using hkeeps
    · simp only [store_entry_of_ne hp hq hpair, and_self]

theorem onFill_entry_self (side : Side) (quantity : Int) :
    (rm.onFill pf s p side quantity).entry s p = { rm.entry s p with
      netPosition := pf.wrap ((rm.entry s p).netPosition + signedQuantity pf side quantity) } := by
  unfold onFill
  rw [store_entry_self]

theorem onFill_entry_of_ne (hp : p < 2 ^ 32) (hq : q < 2 ^ 32) (h : ¬ (t = s ∧ q = p)) (side : Side)
    (quantity : Int) : (rm.onFill pf s p side quantity).entry t q = rm.entry t q :=
  store_entry_of_ne hp hq h

/-- A fill moves the position of its pair and nothing else. -/
theorem onFill_keeps (hp : p < 2 ^ 32) (hq : q < 2 ^ 32) (side : Side) (quantity : Int) :
    (rm.onFill pf s p side quantity).entry t q = { rm.entry t q with
      netPosition := ((rm.onFill pf s p side quantity).entry t q).netPosition } := by
  by_cases hpair : t = s ∧ q = p
  · obtain ⟨rfl, rfl⟩ := hpair
    rw [onFill_entry_self]
  · rw [onFill_entry_of_ne hp hq hpair]

theorem setLimits_entry_self (limits : SymbolRiskLimits) :
    (rm.setLimits s p limits).entry s p = { rm.entry s p with limits := limits } := by
  unfold setLimits
  rw [store_entry_self]

theorem setLimits_entry_of_ne (hp : p < 2 ^ 32) (hq : q < 2 ^ 32) (h : ¬ (t = s ∧ q = p))
    (limits : SymbolRiskLimits) : (rm.setLimits s p limits).entry t q = rm.entry t q :=
  store_entry_of_ne hp hq h

end operations

end RiskManager

/-! ## Section 4: Runs -/

/-- A call on the risk manager. -/
inductive RiskCall where
  | check (symbol participant : UInt32) (side : Side) (quantity : Int) (now : Timestamp)
  | fill (symbol participant : UInt32) (side : Side) (quantity : Int)
  | setLimits (symbol participant : UInt32) (limits : SymbolRiskLimits)
  deriving DecidableEq, Repr

/-- One call; only `check_new_order` has a result. -/
def RiskManager.call (pf : Platform) (rm : RiskManager) :
    RiskCall → Run (RejectReason × RiskManager)
  | .check symbol participant side quantity now =>
      pure (rm.checkNewOrder pf symbol.toNat participant.toNat side quantity now)
  | .fill symbol participant side quantity =>
      pure (.none, rm.onFill pf symbol.toNat participant.toNat side quantity)
  | .setLimits symbol participant limits =>
      pure (.none, rm.setLimits symbol.toNat participant.toNat limits)

/-- The call sets the limits of the pair. -/
def RiskCall.Configures (symbol participant : UInt32) : RiskCall → Prop
  | .setLimits s p _ => s = symbol ∧ p = participant
  | _ => False

/-- Two pairs of 32-bit ids are the same pair or have different numbers. -/
theorem pair_toNat {s t p q : UInt32} :
    (t.toNat = s.toNat ∧ q.toNat = p.toNat) ↔ t = s ∧ q = p := by
  rw [UInt32.toNat_inj, UInt32.toNat_inj]

/-- The limits of a pair are changed by setting them only. -/
theorem RiskManager.call_limits {pf : Platform} {rm rm' : RiskManager} {c : RiskCall}
    {reason : RejectReason} (h : rm.call pf c = some (reason, rm')) {s p : UInt32}
    (hc : ¬ c.Configures s p) :
    (rm'.entry s.toNat p.toNat).limits = (rm.entry s.toNat p.toNat).limits := by
  cases c with
  | check t q side quantity now =>
    obtain ⟨-, rfl⟩ := Prod.mk.inj (Option.some.inj h)
    exact (checkNewOrder_keeps _ q.toNat_lt p.toNat_lt side quantity now).1
  | fill t q side quantity =>
    obtain ⟨-, rfl⟩ := Prod.mk.inj (Option.some.inj h)
    rw [onFill_keeps q.toNat_lt p.toNat_lt]
  | setLimits t q limits =>
    obtain ⟨-, rfl⟩ := Prod.mk.inj (Option.some.inj h)
    rw [setLimits_entry_of_ne q.toNat_lt p.toNat_lt]
    intro hpair
    have hsame := pair_toNat.mp hpair
    exact hc ⟨hsame.1.symm, hsame.2.symm⟩

/-- A position is zero or the result of a 64-bit addition. -/
theorem RiskManager.call_position {pf : Platform} {rm rm' : RiskManager} {c : RiskCall}
    {reason : RejectReason} (h : rm.call pf c = some (reason, rm')) (s p : UInt32) :
    rm'.position s.toNat p.toNat = rm.position s.toNat p.toNat ∨
      ∃ x, rm'.position s.toNat p.toNat = pf.wrap x := by
  unfold position
  cases c with
  | check t q side quantity now =>
    obtain ⟨-, rfl⟩ := Prod.mk.inj (Option.some.inj h)
    exact .inl (checkNewOrder_keeps _ q.toNat_lt p.toNat_lt side quantity now).2
  | fill t q side quantity =>
    obtain ⟨-, rfl⟩ := Prod.mk.inj (Option.some.inj h)
    by_cases hpair : s.toNat = t.toNat ∧ p.toNat = q.toNat
    · rw [hpair.1, hpair.2, onFill_entry_self]
      exact .inr ⟨_, rfl⟩
    · rw [onFill_entry_of_ne q.toNat_lt p.toNat_lt hpair]
      exact .inl rfl
  | setLimits t q limits =>
    obtain ⟨-, rfl⟩ := Prod.mk.inj (Option.some.inj h)
    left
    by_cases hpair : s.toNat = t.toNat ∧ p.toNat = q.toNat
    · rw [hpair.1, hpair.2, setLimits_entry_self]
    · rw [setLimits_entry_of_ne q.toNat_lt p.toNat_lt hpair]

/-! ## Section 5: Pairs without limits -/

/-- Filled whole, the order takes the position to `-2 ^ 63`, the one 64-bit
    value below the negated default limit (a buy gets there by wrapping). -/
def BottomsOut (side : Side) (position quantity : Int) : Prop :=
  match side with
  | .buy => position + quantity = 2 ^ 63
  | .sell => position - quantity = -2 ^ 63

/-- Default limits refuse nothing here: the pair has no entry, or the order
    does not bottom out and its window has counted fewer than `2 ^ 32 - 1`. -/
def RiskManager.Unhindered (rm : RiskManager) (s p : UInt32) (side : Side) (quantity : Int)
    (now : Timestamp) : Prop :=
  rm.state (packKey s.toNat p.toNat) = none ∨
    ¬ BottomsOut side (rm.position s.toNat p.toNat) quantity ∧
    (((rm.entry s.toNat p.toNat).rollWindow now).ordersInWindow).toNat < 2 ^ 32 - 1

/-- The default limits stop an order only at the bottom of the 64-bit range. -/
theorem SymbolParticipantState.within_default_iff {st : SymbolParticipantState}
    (hlimits : st.limits = {}) (hlo : -2 ^ 63 ≤ st.netPosition) (hhi : st.netPosition < 2 ^ 63)
    (side : Side) {quantity : Int} (hq : 0 < quantity) (hq' : quantity < 2 ^ 63) :
    st.Within .int64 side quantity ↔ ¬ BottomsOut side st.netPosition quantity := by
  have hneg : Int.bmod (-quantity) (2 ^ 64) = -quantity := by
    rw [Int.bmod_def]
    split <;> omega
  have hmin : Int.bmod (-(2 ^ 63 - 1)) (2 ^ 64) = -(2 ^ 63 - 1) := by decide
  unfold Within prospective BottomsOut
  rw [hlimits]
  cases side with
  | buy =>
    show quantity ≤ 2 ^ 63 - 1 ∧ Int.bmod (st.netPosition + quantity) (2 ^ 64) ≤ 2 ^ 63 - 1 ∧
      Int.bmod (-(2 ^ 63 - 1)) (2 ^ 64) ≤ Int.bmod (st.netPosition + quantity) (2 ^ 64) ↔ _
    rw [hmin, Int.bmod_def]
    split <;> omega
  | sell =>
    show quantity ≤ 2 ^ 63 - 1 ∧
      Int.bmod (st.netPosition + Int.bmod (-quantity) (2 ^ 64)) (2 ^ 64) ≤ 2 ^ 63 - 1 ∧
      Int.bmod (-(2 ^ 63 - 1)) (2 ^ 64) ≤
        Int.bmod (st.netPosition + Int.bmod (-quantity) (2 ^ 64)) (2 ^ 64) ↔ _
    rw [hneg, hmin, Int.bmod_def]
    split <;> omega

/-- **Pairs without limits**: after any run that does not set the limits of
    the pair, in 64-bit arithmetic, `check_new_order` accepts a quantity of the
    64-bit range exactly when it is unhindered. -/
theorem unconfigured_accepted_iff (s p : UInt32) (calls : List RiskCall)
    (hcalls : ∀ c ∈ calls, ¬ c.Configures s p) :
    ∃ replies rm, Runs.exec (RiskManager.call .int64) {} calls = some (replies, rm) ∧
      ∀ (side : Side) (quantity : Int) (now : Timestamp), 0 < quantity → quantity < 2 ^ 63 →
        ((rm.checkNewOrder .int64 s.toNat p.toNat side quantity now).1 = .none ↔
          rm.Unhindered s p side quantity now) := by
  -- every call answers; the limits stay the default and the position stays in range
  have hstep : ∀ (_ : List (RiskCall × RejectReason)) (rm : RiskManager) (c : RiskCall),
      ((rm.entry s.toNat p.toNat).limits = {} ∧ -2 ^ 63 ≤ rm.position s.toNat p.toNat ∧
        rm.position s.toNat p.toNat < 2 ^ 63) → ¬ c.Configures s p →
      ∃ reason rm', rm.call .int64 c = some (reason, rm') ∧
        (rm'.entry s.toNat p.toNat).limits = {} ∧ -2 ^ 63 ≤ rm'.position s.toNat p.toNat ∧
          rm'.position s.toNat p.toNat < 2 ^ 63 := by
    rintro - rm c ⟨hl, hlo, hhi⟩ hc
    obtain ⟨⟨reason, rm'⟩, hcall⟩ : ∃ x, rm.call .int64 c = some x := by
      cases c <;> exact ⟨_, rfl⟩
    refine ⟨reason, rm', hcall, (RiskManager.call_limits hcall hc).trans hl, ?_⟩
    rcases RiskManager.call_position hcall s p with heq | ⟨x, hx⟩
    · rw [heq]
      exact ⟨hlo, hhi⟩
    · rw [hx]
      exact ⟨Int.le_bmod (by decide), Int.bmod_lt (by decide)⟩
  obtain ⟨replies, rm, hrun, hlimits, hlo, hhi⟩ := Runs.exec_history hstep calls [] {}
    ⟨rfl, show (-2 ^ 63 : Int) ≤ 0 by decide, show (0 : Int) < 2 ^ 63 by decide⟩ hcalls
  refine ⟨replies, rm, hrun, ?_⟩
  intro side quantity now hq hq'
  unfold RiskManager.checkNewOrder RiskManager.Unhindered
  cases hst : rm.state (packKey s.toNat p.toNat) with
  | none => simp
  | some st =>
    have hentry := RiskManager.entry_of_state hst
    unfold RiskManager.position at hlo hhi ⊢
    rw [hentry] at hlimits hlo hhi ⊢
    rw [SymbolParticipantState.check_eq_none_iff,
      SymbolParticipantState.within_default_iff hlimits hlo hhi side hq hq', hlimits,
      UInt32.lt_iff_toNat_lt]
    simp

/-- A pair that has sold one lot may still buy the largest quantity there is. -/
theorem unconfigured_accepted_after_fill :
    ∃ replies rm, Runs.exec (RiskManager.call .int64) {} [.fill 1 7 .sell 1] =
        some (replies, rm) ∧
      (rm.checkNewOrder .int64 1 7 .buy (2 ^ 63 - 1) 5).1 = .none := by
  obtain ⟨replies, rm, hrun, hiff⟩ := unconfigured_accepted_iff 1 7 [.fill 1 7 .sell 1]
    (by simp [RiskCall.Configures])
  refine ⟨replies, rm, hrun, (hiff .buy (2 ^ 63 - 1) 5 (by decide) (by decide)).mpr ?_⟩
  obtain ⟨-, rfl⟩ := Prod.mk.inj (Option.some.inj hrun)
  right
  constructor
  · unfold BottomsOut
    decide
  · decide

/-- It may not sell that quantity: no addition overflows, but the prospective
    position is below the negated default limit. -/
theorem unconfigured_rejected :
    (Runs.exec (RiskManager.call .int64) {}
      [.fill 1 7 .sell 1, .check 1 7 .sell (2 ^ 63 - 1) 5]).map Prod.fst =
        some [.none, .riskMaxPosition] := by
  decide

end LightningLob
