import LightningLob.RiskLimits
import LightningLob.TradeTape

/-! # Who pays for the rate limit

    The risk check counts an order before the book has looked at it, so an
    order that the book then rejects has used up budget.  In every run without
    such an order, only accepted orders are counted. -/

namespace LightningLob

/-! ## Section 1: The window of a pair -/

namespace SymbolParticipantState

/-- The same limits and the same window. -/
structure SameRate (st st' : SymbolParticipantState) : Prop where
  limits_eq : st'.limits = st.limits
  windowStart_eq : st'.windowStart = st.windowStart
  ordersInWindow_eq : st'.ordersInWindow = st.ordersInWindow

theorem SameRate.refl (st : SymbolParticipantState) : SameRate st st := ⟨rfl, rfl, rfl⟩

theorem SameRate.trans {st st' st'' : SymbolParticipantState} (h : SameRate st st')
    (h' : SameRate st' st'') : SameRate st st'' :=
  ⟨h'.limits_eq.trans h.limits_eq, h'.windowStart_eq.trans h.windowStart_eq,
    h'.ordersInWindow_eq.trans h.ordersInWindow_eq⟩

/-- How many orders the pair may still submit at a time. -/
def budget (st : SymbolParticipantState) (now : Timestamp) : Nat :=
  st.limits.maxOrdersPerSecond.toNat - (st.rollWindow now).ordersInWindow.toNat

theorem SameRate.budget_eq {st st' : SymbolParticipantState} (h : SameRate st st')
    (now : Timestamp) : st'.budget now = st.budget now := by
  unfold budget rollWindow
  rw [h.limits_eq, h.windowStart_eq]
  split
  · rfl
  · rw [h.ordersInWindow_eq]

/-- The time is within the window that starts at `start`. -/
def InWindow (start now : Timestamp) : Prop := ((now : Int) - start) % 2 ^ 64 < kRateLimitWindowNs

theorem inWindow_self (now : Timestamp) : InWindow now now := by
  simp [InWindow, kRateLimitWindowNs]

/-- A window is kept as long as the time is within it. -/
theorem rollWindow_of_inWindow {st : SymbolParticipantState} {now : Timestamp}
    (h : InWindow st.windowStart now) : st.rollWindow now = st :=
  if_neg (Int.not_le.mpr h)

/-- **Inversion**: the window is kept, or a new one starts. -/
theorem rollWindow_cases (st : SymbolParticipantState) (now : Timestamp) :
    (InWindow st.windowStart now ∧ st.rollWindow now = st) ∨
      st.rollWindow now = { st with windowStart := now, ordersInWindow := 0 } := by
  by_cases h : InWindow st.windowStart now
  · exact .inl ⟨h, rollWindow_of_inWindow h⟩
  · exact .inr (if_pos (Int.not_lt.mp h))

/-- Either way the time is within it. -/
theorem inWindow_rollWindow (st : SymbolParticipantState) (now : Timestamp) :
    InWindow (st.rollWindow now).windowStart now := by
  rcases st.rollWindow_cases now with ⟨h, heq⟩ | heq
  · rw [heq]
    exact h
  · rw [heq]
    exact inWindow_self now

/-- The budget does not depend on whether the window was renewed already. -/
theorem budget_rollWindow (st : SymbolParticipantState) (now : Timestamp) :
    (st.rollWindow now).budget now = st.budget now := by
  unfold budget
  rw [rollWindow_of_inWindow (st.inWindow_rollWindow now), rollWindow_limits]

/-- The counter does not overflow below a limit. -/
theorem counted_toNat {n m : UInt32} (h : n < m) : (n + 1).toNat = n.toNat + 1 := by
  have hlt := UInt32.lt_iff_toNat_lt.mp h
  have hmax := m.toNat_lt
  rw [UInt32.toNat_add, UInt32.toNat_one, Nat.mod_eq_of_lt (by omega)]

/-- Counting an order in a window with room costs one. -/
theorem budget_counted {st : SymbolParticipantState} {now : Timestamp}
    (hroom : (st.rollWindow now).ordersInWindow < st.limits.maxOrdersPerSecond) :
    SymbolParticipantState.budget { st.rollWindow now with
      ordersInWindow := (st.rollWindow now).ordersInWindow + 1 } now + 1 = st.budget now := by
  have hopen : InWindow (SymbolParticipantState.windowStart { st.rollWindow now with
      ordersInWindow := (st.rollWindow now).ordersInWindow + 1 }) now := st.inWindow_rollWindow now
  have hlt := UInt32.lt_iff_toNat_lt.mp hroom
  unfold budget
  rw [rollWindow_of_inWindow hopen]
  simp only [rollWindow_limits, counted_toNat hroom]
  omega

end SymbolParticipantState

namespace RiskManager

variable {pf : Platform} {rm : RiskManager} {s p t q : Nat}

theorem onFill_sameRate (hp : p < 2 ^ 32) (hq : q < 2 ^ 32) (t : Nat) (side : Side)
    (quantity : Int) : (rm.entry s p).SameRate ((rm.onFill pf t q side quantity).entry s p) := by
  rw [onFill_keeps hq hp]
  exact ⟨rfl, rfl, rfl⟩

theorem trades_sameRate (pf : Platform) (rm : RiskManager) (s : Nat) (hp : p < 2 ^ 32)
    {ts : List Trade}
    (hts : ∀ t ∈ ts, t.takerParticipantId < 2 ^ 32 ∧ t.makerParticipantId < 2 ^ 32) :
    (rm.entry s p).SameRate ((ts.foldl (onTrade pf) rm).entry s p) := by
  induction ts generalizing rm with
  | nil => exact .refl _
  | cons t ts ih =>
    obtain ⟨ht, hm⟩ := hts t (by simp)
    have hfills : (rm.entry s p).SameRate ((rm.onTrade pf t).entry s p) :=
      (onFill_sameRate hp ht t.symbol t.takerSide t.quantity).trans
        (onFill_sameRate hp hm t.symbol t.takerSide.opposite t.quantity)
    exact hfills.trans (ih _ fun u hu => hts u (by simp [hu]))

/-- A check of another pair leaves the entry alone. -/
theorem checkNewOrder_entry_of_ne (hp : p < 2 ^ 32) (hq : q < 2 ^ 32) (h : ¬ (s = t ∧ p = q))
    (side : Side) (quantity : Int) (now : Timestamp) :
    (rm.checkNewOrder pf t q side quantity now).2.entry s p = rm.entry s p := by
  unfold checkNewOrder
  cases rm.state (packKey t q) with
  | none => rfl
  | some st => exact store_entry_of_ne hq hp h

/-- A check of the pair itself: without an entry it passes and leaves no trace. -/
theorem checkNewOrder_entry_self (pf : Platform) {st : SymbolParticipantState}
    (h : rm.state (packKey s p) = some st) (side : Side) (quantity : Int) (now : Timestamp) :
    (rm.checkNewOrder pf s p side quantity now).1 = (st.check pf side quantity now).1 ∧
      (rm.checkNewOrder pf s p side quantity now).2.entry s p =
        (st.check pf side quantity now).2 := by
  unfold checkNewOrder
  rw [h]
  exact ⟨rfl, store_entry_self⟩

/-- An order is refused only if its pair has an entry. -/
theorem inForce_of_refused {side : Side} {quantity : Int} {now : Timestamp}
    (h : (rm.checkNewOrder pf s p side quantity now).1 ≠ .none) :
    ∃ limits, rm.InForce s p limits := by
  unfold checkNewOrder at h
  cases hst : rm.state (packKey s p) with
  | none =>
    rw [hst] at h
    exact absurd rfl h
  | some st => exact ⟨st.limits, st, hst, rfl⟩

end RiskManager

/-! ## Section 2: What a call does to the window -/

/-- A book's reply to an order is a rejection exactly when a check failed. -/
theorem RefBook.call_accepted_iff {pf : Platform} {r : RefBook} {order : Order} {now : Clock} :
    (r.call pf (.add order, now)).1.accepted = false ↔ (r.rejectReason order).isSome = true := by
  show decide ((r.addOrder pf order now).report.status ≠ .rejected) = false ↔ _
  cases hreason : r.rejectReason order with
  | some reason => simp [addOrder, hreason, ExecutionReport.reject]
  | none => simp [(addOrder_reported pf now hreason).2]

namespace MatchingEngine

variable {k : Approach} {pf : Platform} {e e' : MatchingEngine k} {a : EngineCall × Clock}
  {reply : Reply} {s p : UInt32}

/-- The call is an order of the pair that is counted: the pair has an entry,
    the risk check lets the order through, and there is a book to take it. -/
def Charges (pf : Platform) (s p : UInt32) (e : MatchingEngine k) : EngineCall × Clock → Prop
  | (.submit request, now) => request.symbol = s ∧ request.participantId = p ∧
      (e.riskManager.state (packKey s.toNat p.toNat)).isSome = true ∧
      (e.riskManager.checkNewOrder pf s.toNat p.toNat request.side request.quantity (now 0)).1 =
        .none ∧
      (e.books s.toNat).isSome = true
  | _ => False

/-- The checks of the book refuse the order of the call. -/
def BookRejects (e : MatchingEngine k) : EngineCall × Clock → Prop
  | (.submit request, now) => ∃ b ∈ e.books request.symbol.toNat,
      (b.reference.rejectReason (request.toOrder (e.assignId request).1.toNat (now 0))).isSome =
        true
  | _ => False

instance (pf : Platform) (s p : UInt32) (e : MatchingEngine k) :
    (a : EngineCall × Clock) → Decidable (e.Charges pf s p a)
  | (.submit request, now) => inferInstanceAs (Decidable (request.symbol = s ∧
      request.participantId = p ∧
      (e.riskManager.state (packKey s.toNat p.toNat)).isSome = true ∧
      (e.riskManager.checkNewOrder pf s.toNat p.toNat request.side request.quantity (now 0)).1 =
        .none ∧
      (e.books s.toNat).isSome = true))
  | (.addSymbol .., _) | (.setRiskLimits .., _) | (.cancel .., _) | (.amend .., _) |
    (.resetSymbol .., _) => instDecidableFalse

instance (e : MatchingEngine k) : (a : EngineCall × Clock) → Decidable (e.BookRejects a)
  | (.submit request, now) => inferInstanceAs (Decidable (∃ b ∈ e.books request.symbol.toNat,
      (b.reference.rejectReason (request.toOrder (e.assignId request).1.toNat (now 0))).isSome =
        true))
  | (.addSymbol .., _) | (.setRiskLimits .., _) | (.cancel .., _) | (.amend .., _) |
    (.resetSymbol .., _) => instDecidableFalse

/-- What a call does to the window of a pair. -/
inductive WindowStep (pf : Platform) (s p : UInt32) (e : MatchingEngine k) (a : EngineCall × Clock)
    (reply : Reply) (e' : MatchingEngine k) : Prop where
  /-- Nothing is counted and the window stays. -/
  | kept (hstart : (e'.riskManager.entry s.toNat p.toNat).windowStart =
        (e.riskManager.entry s.toNat p.toNat).windowStart)
      (horders : (e'.riskManager.entry s.toNat p.toNat).ordersInWindow =
        (e.riskManager.entry s.toNat p.toNat).ordersInWindow)
      (hlimits : a.1.SubmitsFor s p → (e'.riskManager.entry s.toNat p.toNat).limits =
        (e.riskManager.entry s.toNat p.toNat).limits)
      (huncharged : ¬ e.Charges pf s p a)
      (hfree : a.1.SubmitsFor s p → reply.accepted = true →
        e.riskManager.state (packKey s.toNat p.toNat) = none)
  /-- The rate limit refuses an order of the pair; its window may be new. -/
  | renewed (request : OrderRequest) (now : Clock) (ha : a = (.submit request, now))
      (hpair : request.symbol = s ∧ request.participantId = p) (hrefused : reply.accepted = false)
      (hcheck : (e.riskManager.checkNewOrder pf s.toNat p.toNat request.side request.quantity
        (now 0)).1 ≠ .none)
      (hwindow : ((e.riskManager.entry s.toNat p.toNat).rollWindow (now 0)).SameRate
        (e'.riskManager.entry s.toNat p.toNat))
  /-- An order of the pair is counted. -/
  | charged (request : OrderRequest) (now : Clock) (ha : a = (.submit request, now))
      (hcharges : e.Charges pf s p a)
      (hroom : ((e.riskManager.entry s.toNat p.toNat).rollWindow (now 0)).ordersInWindow <
        (e.riskManager.entry s.toNat p.toNat).limits.maxOrdersPerSecond)
      (hwindow : SymbolParticipantState.SameRate
        { (e.riskManager.entry s.toNat p.toNat).rollWindow (now 0) with
          ordersInWindow :=
            ((e.riskManager.entry s.toNat p.toNat).rollWindow (now 0)).ordersInWindow + 1 }
        (e'.riskManager.entry s.toNat p.toNat))
      (haccepted : reply.accepted = false ↔ e.BookRejects a)

/-- A call that counts no order of the pair and changes neither its limits nor
    its window. -/
theorem WindowStep.of_sameRate
    (hsame : (e.riskManager.entry s.toNat p.toNat).SameRate
      (e'.riskManager.entry s.toNat p.toNat))
    (huncharged : ¬ e.Charges pf s p a)
    (hfree : a.1.SubmitsFor s p → reply.accepted = true →
      e.riskManager.state (packKey s.toNat p.toNat) = none) :
    WindowStep pf s p e a reply e' :=
  .kept hsame.windowStart_eq hsame.ordersInWindow_eq (fun _ => hsame.limits_eq) huncharged hfree

/-- The window after the risk check refused an order. -/
theorem WindowStep.of_refused {request : OrderRequest} {now : Clock} {reason : RejectReason}
    {rm : RiskManager} {n : UInt64}
    (hcheck : e.riskManager.checkNewOrder pf request.symbol.toNat request.participantId.toNat
      request.side request.quantity (now 0) = (reason, rm)) (hreason : reason ≠ .none)
    (hreply : reply.accepted = false) :
    WindowStep pf s p e (.submit request, now) reply
      { e with riskManager := rm, nextOrderId := n } := by
  obtain rfl : rm = (e.riskManager.checkNewOrder pf request.symbol.toNat
    request.participantId.toNat request.side request.quantity (now 0)).2 := by rw [hcheck]
  by_cases hpair : request.symbol = s ∧ request.participantId = p
  · obtain ⟨rfl, rfl⟩ := hpair
    have huncharged : ¬ e.Charges pf request.symbol request.participantId
        (.submit request, now) := by
      rintro ⟨-, -, -, hpass, -⟩
      rw [hcheck] at hpass
      exact hreason hpass
    cases hst : e.riskManager.state (packKey request.symbol.toNat request.participantId.toNat) with
    | none =>
      refine .of_sameRate ?_ huncharged fun _ _ => hst
      simp only [RiskManager.checkNewOrder, hst]
      exact .refl _
    | some st =>
      obtain ⟨h₁, h₂⟩ := RiskManager.checkNewOrder_entry_self pf hst request.side request.quantity
        (now 0)
      have hentry := RiskManager.entry_of_state hst
      rw [hcheck] at h₁
      rcases st.check_cases pf request.side request.quantity (now 0) with
        ⟨-, -, heq⟩ | ⟨-, -, heq⟩ | ⟨-, -, heq⟩
      · refine .of_sameRate ?_ huncharged fun _ hacc => by rw [hreply] at hacc; cases hacc
        show SymbolParticipantState.SameRate _ (RiskManager.entry _ _ _)
        rw [h₂, heq, hentry]
        exact .refl _
      · refine .renewed request now rfl ⟨rfl, rfl⟩ hreply (by rw [hcheck]; exact hreason) ?_
        show SymbolParticipantState.SameRate _ (RiskManager.entry _ _ _)
        rw [h₂, heq, hentry]
        exact .refl _
      · rw [heq] at h₁
        exact absurd h₁ hreason
  · have hne : ¬ (s.toNat = request.symbol.toNat ∧ p.toNat = request.participantId.toNat) := by
      intro hc
      exact hpair ⟨(UInt32.toNat_inj.mp hc.1).symm, (UInt32.toNat_inj.mp hc.2).symm⟩
    refine .of_sameRate ?_ (fun hc => hpair ⟨hc.1, hc.2.1⟩) fun hc => absurd hc hpair
    show SymbolParticipantState.SameRate _ (RiskManager.entry _ _ _)
    rw [RiskManager.checkNewOrder_entry_of_ne p.toNat_lt request.participantId.toNat_lt hne]
    exact .refl _

/-- The window after a book took an order. -/
theorem WindowStep.of_booked {request : OrderRequest} {now : Clock} {rm : RiskManager} {b : k.Book}
    (hbook : e.books request.symbol.toNat = some b)
    (hcheck : e.riskManager.checkNewOrder pf request.symbol.toNat request.participantId.toNat
      request.side request.quantity (now 0) = (.none, rm))
    (hreply : reply.accepted = false ↔ e.BookRejects (.submit request, now))
    (htrades : (rm.entry s.toNat p.toNat).SameRate (e'.riskManager.entry s.toNat p.toNat)) :
    WindowStep pf s p e (.submit request, now) reply e' := by
  obtain rfl : rm = (e.riskManager.checkNewOrder pf request.symbol.toNat
    request.participantId.toNat request.side request.quantity (now 0)).2 := by rw [hcheck]
  by_cases hpair : request.symbol = s ∧ request.participantId = p
  · obtain ⟨rfl, rfl⟩ := hpair
    cases hst : e.riskManager.state (packKey request.symbol.toNat request.participantId.toNat) with
    | none =>
      -- without an entry the order is not counted
      refine .of_sameRate ?_ (fun hc => by simp [Charges, hst] at hc) fun _ _ => hst
      simpa only [RiskManager.checkNewOrder, hst] using htrades
    | some st =>
      obtain ⟨h₁, h₂⟩ := RiskManager.checkNewOrder_entry_self pf hst request.side request.quantity
        (now 0)
      have hentry := RiskManager.entry_of_state hst
      rw [hcheck] at h₁
      rw [h₂] at htrades
      rcases st.check_cases pf request.side request.quantity (now 0) with
        ⟨-, hne, -⟩ | ⟨-, -, heq⟩ | ⟨-, hroom, heq⟩
      · exact absurd h₁.symm hne
      · rw [heq] at h₁
        cases h₁
      · rw [heq] at htrades
        refine .charged request now rfl ⟨rfl, rfl, by simp [hst], by rw [hcheck], by simp [hbook]⟩
          ?_ ?_ hreply
        · rw [hentry]
          exact hroom
        · rw [hentry]
          exact htrades
  · have hne : ¬ (s.toNat = request.symbol.toNat ∧ p.toNat = request.participantId.toNat) := by
      intro hc
      exact hpair ⟨(UInt32.toNat_inj.mp hc.1).symm, (UInt32.toNat_inj.mp hc.2).symm⟩
    rw [RiskManager.checkNewOrder_entry_of_ne p.toNat_lt request.participantId.toNat_lt hne]
      at htrades
    exact .of_sameRate htrades (fun hc => hpair ⟨hc.1, hc.2.1⟩) fun hc => absurd hc hpair

/-- **Inversion for the window**: every call keeps it, renews it or counts an
    order in it. -/
theorem Effect.windowStep (h : e.Effect pf a reply e')
    (hlegs : ∀ t ∈ reply.trades, t.takerParticipantId < 2 ^ 32 ∧ t.makerParticipantId < 2 ^ 32)
    (s p : UInt32) : WindowStep pf s p e a reply e' := by
  cases h with
  | @idle a answer hsubmit =>
    obtain ⟨c, now⟩ := a
    cases c with
    | submit request =>
      obtain ⟨hnone, rfl⟩ := hsubmit request rfl
      refine .of_sameRate (.refl _) ?_ ?_
      · rintro ⟨rfl, -, -, -, hbook⟩
        rw [hnone] at hbook
        cases hbook
      · intro _ hacc
        cases hacc
    | _ => exact .of_sameRate (.refl _) (by simp [Charges]) (by simp [EngineCall.SubmitsFor])
  | registered =>
    exact .of_sameRate (.refl _) (by simp [Charges]) (by simp [EngineCall.SubmitsFor])
  | @limited symbol participant limits now =>
    have hentry : ∀ f : SymbolParticipantState → Nat,
        (∀ st l, f { st with limits := l } = f st) →
        f ((e.riskManager.setLimits symbol.toNat participant.toNat limits).entry s.toNat p.toNat) =
          f (e.riskManager.entry s.toNat p.toNat) := by
      intro f hf
      by_cases hpair : s.toNat = symbol.toNat ∧ p.toNat = participant.toNat
      · rw [hpair.1, hpair.2, RiskManager.setLimits_entry_self, hf]
      · rw [RiskManager.setLimits_entry_of_ne participant.toNat_lt p.toNat_lt hpair]
    refine .kept (hentry (·.windowStart) fun _ _ => rfl) ?_ (by simp [EngineCall.SubmitsFor])
      (by simp [Charges]) (by simp [EngineCall.SubmitsFor])
    exact UInt32.toNat_inj.mp (hentry (·.ordersInWindow.toNat) fun _ _ => rfl)
  | refused hbook hcheck hreason => exact .of_refused hcheck hreason rfl
  | @booked a symbol c rm n b b' hbook hforward _ =>
    have htrades := RiskManager.trades_sameRate pf rm s.toNat p.toNat_lt hlegs
    cases hforward with
    | @submit request now rm hcheck =>
      refine .of_booked hbook hcheck ?_ htrades
      rw [RefBook.call_accepted_iff]
      simp [BookRejects, hbook]
    | cancel | amend | reset =>
      exact .of_sameRate htrades (by simp [Charges]) (by simp [EngineCall.SubmitsFor])

/-! ## Section 3: Rejected orders and the budget -/

/-- If the call is an order of the pair and is rejected, the pair may submit
    as many orders at its receipt time as before. -/
def BudgetKept (s p : UInt32) (e : MatchingEngine k) (a : EngineCall × Clock) (reply : Reply)
    (e' : MatchingEngine k) : Prop :=
  ∀ request now, a = (.submit request, now) → request.symbol = s → request.participantId = p →
    reply.accepted = false → (e'.riskManager.entry s.toNat p.toNat).budget (now 0) =
      (e.riskManager.entry s.toNat p.toNat).budget (now 0)

/-- **Step**: a rejected order of the pair keeps the budget exactly when it is
    not one that was counted and then rejected by the book. -/
theorem WindowStep.budgetKept_iff (h : WindowStep pf s p e a reply e') :
    BudgetKept s p e a reply e' ↔ ¬ (e.Charges pf s p a ∧ e.BookRejects a) := by
  cases h with
  | kept hstart horders hlimits huncharged _ =>
    refine iff_of_true ?_ fun hc => huncharged hc.1
    rintro request now rfl hs hp -
    have hsame : (e.riskManager.entry s.toNat p.toNat).SameRate
        (e'.riskManager.entry s.toNat p.toNat) := ⟨hlimits ⟨hs, hp⟩, hstart, horders⟩
    exact hsame.budget_eq _
  | renewed request now ha hpair _ hcheck hwindow =>
    subst ha
    refine iff_of_true ?_ fun hc => hcheck hc.1.2.2.2.1
    rintro request' now' heq - - -
    cases heq
    rw [hwindow.budget_eq, SymbolParticipantState.budget_rollWindow]
  | charged request now ha hcharges hroom hwindow haccepted =>
    subst ha
    by_cases hrejects : e.BookRejects (.submit request, now)
    -- counted and rejected: one order less may follow
    · refine iff_of_false ?_ fun hc => hc ⟨hcharges, hrejects⟩
      intro hkept
      have hbudget := hkept request now rfl hcharges.1 hcharges.2.1 (haccepted.mpr hrejects)
      have hcost := SymbolParticipantState.budget_counted hroom
      rw [hwindow.budget_eq] at hbudget
      omega
    · refine iff_of_true ?_ fun hc => hrejects hc.2
      rintro request' now' heq - - hrefused
      cases heq
      exact absurd (haccepted.mp hrefused) hrejects

/-- A pair with an entry keeps it. -/
theorem Effect.tracked (h : e.Effect pf a reply e')
    (hlegs : ∀ t ∈ reply.trades, t.takerParticipantId < 2 ^ 32 ∧ t.makerParticipantId < 2 ^ 32)
    (htracked : ∃ limits, e.riskManager.InForce s.toNat p.toNat limits) :
    ∃ limits, e'.riskManager.InForce s.toNat p.toNat limits := by
  by_cases ha : a.1.Configures s p
  · cases h with
    | idle | registered => exact htracked
    | limited =>
      obtain ⟨rfl, rfl⟩ := ha
      exact ⟨_, RiskManager.setLimits_inForce _ _ _ _⟩
    | refused => cases ha
    | booked _ hforward _ => cases hforward <;> cases ha
  · obtain ⟨limits, hforce⟩ := htracked
    exact ⟨limits, h.inForce hlegs ha hforce⟩

end MatchingEngine

/-! ## Section 4: Orders in the window -/

instance (s p : UInt32) : (c : EngineCall) → Decidable (c.SubmitsFor s p)
  | .submit request =>
      inferInstanceAs (Decidable (request.symbol = s ∧ request.participantId = p))
  | .addSymbol .. | .setRiskLimits .. | .cancel .. | .amend .. | .resetSymbol .. =>
      instDecidableFalse

/-- How many orders of the pair on the tape were accepted. -/
def acceptedFor (s p : UInt32) (tape : List EngineEvent) : Nat :=
  tape.countP fun x => x.1.1.SubmitsFor s p ∧ x.2.accepted = true

theorem acceptedFor_append (s p : UInt32) (xs ys : List EngineEvent) :
    acceptedFor s p (xs ++ ys) = acceptedFor s p xs + acceptedFor s p ys :=
  List.countP_append

/-- The window starts with the receipt of the first event, an order of the
    pair, and holds the receipts of all accepted orders of the pair since. -/
structure OpenedBy (s p : UInt32) (start : Timestamp) (since : List EngineEvent) : Prop where
  opening : ∃ request now reply rest, since = ((.submit request, now), reply) :: rest ∧
    request.symbol = s ∧ request.participantId = p ∧ now 0 = start
  inside : ∀ x ∈ since, x.1.1.SubmitsFor s p → x.2.accepted = true →
    SymbolParticipantState.InWindow start (x.1.2 0)

/-- The orders counted in the window of a pair are at most its accepted orders
    since the window started: with the run, or with the order that opened it. -/
def CountsAccepted (s p : UInt32) (start₀ : Timestamp) (tape : List EngineEvent)
    (st : SymbolParticipantState) : Prop :=
  ∃ before since, tape = before ++ since ∧ st.ordersInWindow.toNat ≤ acceptedFor s p since ∧
    (before = [] ∧ st.windowStart = start₀ ∨ OpenedBy s p st.windowStart since)

section counting

variable {k : Approach} {pf : Platform} {e e' : MatchingEngine k} {s p : UInt32}
  {start₀ : Timestamp} {tape : List EngineEvent} {x : EngineEvent}

/-- The invariant of a run: a window that an order opened belongs to an entry. -/
def Counted (s p : UInt32) (start₀ : Timestamp) (tape : List EngineEvent) (e : MatchingEngine k) :
    Prop :=
  ∃ before since, tape = before ++ since ∧
    (e.riskManager.entry s.toNat p.toNat).ordersInWindow.toNat ≤ acceptedFor s p since ∧
    (before = [] ∧ (e.riskManager.entry s.toNat p.toNat).windowStart = start₀ ∨
      (∃ limits, e.riskManager.InForce s.toNat p.toNat limits) ∧
        OpenedBy s p (e.riskManager.entry s.toNat p.toNat).windowStart since)

/-- An event that stays in the window. -/
theorem Counted.extend (h : Counted s p start₀ tape e)
    (hstart : (e'.riskManager.entry s.toNat p.toNat).windowStart =
      (e.riskManager.entry s.toNat p.toNat).windowStart)
    (horders : (e'.riskManager.entry s.toNat p.toNat).ordersInWindow.toNat ≤
      (e.riskManager.entry s.toNat p.toNat).ordersInWindow.toNat + acceptedFor s p [x])
    (htracked : (∃ limits, e.riskManager.InForce s.toNat p.toNat limits) →
      ∃ limits, e'.riskManager.InForce s.toNat p.toNat limits)
    (hinside : (∃ limits, e.riskManager.InForce s.toNat p.toNat limits) →
      x.1.1.SubmitsFor s p → x.2.accepted = true → SymbolParticipantState.InWindow
        (e.riskManager.entry s.toNat p.toNat).windowStart (x.1.2 0)) :
    Counted s p start₀ (tape ++ [x]) e' := by
  obtain ⟨before, since, rfl, hle, hopened⟩ := h
  refine ⟨before, since ++ [x], List.append_assoc _ _ _, ?_, ?_⟩
  · rw [acceptedFor_append]
    omega
  · rw [hstart]
    refine hopened.imp_right fun ⟨hforce, hopening, hin⟩ => ⟨htracked hforce, ?_, ?_⟩
    · obtain ⟨request, now, reply, rest, rfl, hpair⟩ := hopening
      exact ⟨request, now, reply, rest ++ [x], rfl, hpair⟩
    · intro y hy
      rcases List.mem_append.mp hy with hy | hy
      · exact hin y hy
      · rw [List.mem_singleton.mp hy]
        exact hinside hforce

/-- An order that opens a window. -/
theorem Counted.opened {request : OrderRequest} {now : Clock} {reply : Reply}
    (hpair : request.symbol = s ∧ request.participantId = p)
    (hstart : (e'.riskManager.entry s.toNat p.toNat).windowStart = now 0)
    (horders : (e'.riskManager.entry s.toNat p.toNat).ordersInWindow.toNat ≤
      acceptedFor s p [((.submit request, now), reply)])
    (htracked : ∃ limits, e'.riskManager.InForce s.toNat p.toNat limits) :
    Counted s p start₀ (tape ++ [((.submit request, now), reply)]) e' := by
  refine ⟨tape, [((.submit request, now), reply)], rfl, horders, .inr ⟨htracked, ?_, ?_⟩⟩
  · exact ⟨request, now, reply, [], rfl, hpair.1, hpair.2, hstart.symm⟩
  · intro y hy _ _
    rw [List.mem_singleton.mp hy, hstart]
    exact SymbolParticipantState.inWindow_self _

/-- **Step**: unless a counted order is rejected by the book, the window goes
    on counting accepted orders only. -/
theorem Counted.step {a : EngineCall × Clock} {reply : Reply} (h : Counted s p start₀ tape e)
    (hwindow : MatchingEngine.WindowStep pf s p e a reply e')
    (htracked : (∃ limits, e.riskManager.InForce s.toNat p.toNat limits) →
      ∃ limits, e'.riskManager.InForce s.toNat p.toNat limits)
    (hok : ¬ (e.Charges pf s p a ∧ e.BookRejects a)) :
    Counted s p start₀ (tape ++ [(a, reply)]) e' := by
  cases hwindow with
  | kept hstart horders _ _ hfree =>
    refine h.extend hstart (by rw [horders]; omega) htracked ?_
    rintro ⟨limits, st, hst, -⟩ hsubmit hacc
    rw [hfree hsubmit hacc] at hst
    cases hst
  | renewed request now ha hpair hrefused hcheck hwindow =>
    subst ha
    -- only a pair with an entry is ever refused
    have hforce' := htracked (RiskManager.inForce_of_refused hcheck)
    rcases (e.riskManager.entry s.toNat p.toNat).rollWindow_cases (now 0) with ⟨-, heq⟩ | heq
    · rw [heq] at hwindow
      refine h.extend hwindow.windowStart_eq ?_ htracked fun _ _ hacc => ?_
      · rw [hwindow.ordersInWindow_eq]
        omega
      · rw [hrefused] at hacc
        cases hacc
    · rw [heq] at hwindow
      refine .opened hpair hwindow.windowStart_eq ?_ hforce'
      rw [hwindow.ordersInWindow_eq]
      exact Nat.zero_le _
  | charged request now ha hcharges hroom hwindow haccepted =>
    subst ha
    have hacc : reply.accepted = true :=
      (Bool.eq_false_or_eq_true _).resolve_right fun hf => hok ⟨hcharges, haccepted.mp hf⟩
    have hpair : request.symbol = s ∧ request.participantId = p := ⟨hcharges.1, hcharges.2.1⟩
    have hone : acceptedFor s p [((.submit request, now), reply)] = 1 := by
      simp [acceptedFor, EngineCall.SubmitsFor, hpair, hacc]
    have hcount := SymbolParticipantState.counted_toNat hroom
    have horders := congrArg UInt32.toNat hwindow.ordersInWindow_eq
    simp only [hcount] at horders
    rcases (e.riskManager.entry s.toNat p.toNat).rollWindow_cases (now 0) with ⟨hin, heq⟩ | heq
    · rw [heq] at horders
      refine h.extend (hwindow.windowStart_eq.trans (by rw [heq])) ?_ htracked fun _ _ _ => hin
      rw [horders, hone]
    · rw [heq] at horders
      refine .opened hpair (hwindow.windowStart_eq.trans (by rw [heq])) ?_ (htracked ?_)
      · rw [horders, hone]
        rfl
      · obtain ⟨st, hst⟩ := Option.isSome_iff_exists.mp hcharges.2.2.1
        exact ⟨st.limits, st, hst, rfl⟩

end counting

open MatchingEngine in
/-- **Rate budget**: in every run, the rejected orders of a pair all keep its
    budget exactly when none of its orders is counted and then rejected by the
    book; and without such an order, at most the accepted orders of the pair
    since the start of its window are counted in it. -/
theorem only_accepted_orders_charged_iff (pf : Platform) (k : Approach) (rm : RiskManager)
    (s p : UInt32) (hfresh : (rm.entry s.toNat p.toNat).ordersInWindow = 0)
    (calls : List (EngineCall × Clock)) :
    (Runs.Along (MatchingEngine.call pf)
        (fun e a => ∀ reply e', e.call pf a = some (reply, e') → BudgetKept s p e a reply e')
        ({ riskManager := rm } : MatchingEngine k) calls ↔
      Runs.Along (MatchingEngine.call pf) (fun e a => ¬ (e.Charges pf s p a ∧ e.BookRejects a))
        ({ riskManager := rm } : MatchingEngine k) calls) ∧
    (Runs.Along (MatchingEngine.call pf) (fun e a => ¬ (e.Charges pf s p a ∧ e.BookRejects a))
        ({ riskManager := rm } : MatchingEngine k) calls →
      ∃ replies e, Runs.exec (MatchingEngine.call pf) ({ riskManager := rm } : MatchingEngine k)
          calls = some (replies, e) ∧
        CountsAccepted s p (rm.entry s.toNat p.toNat).windowStart (calls.zip replies)
          (e.riskManager.entry s.toNat p.toNat)) := by
  constructor
  · refine Runs.along_congr (P := fun e : MatchingEngine k => e.Running pf) ?_ calls _
      (running_initial rm)
    intro e a hrunning
    obtain ⟨reply, e', hstep, heffect, hrunning', -, hlegs⟩ := hrunning.step a
    have hiff := (heffect.windowStep hlegs s p).budgetKept_iff
    rw [hstep]
    simp only [Option.some.injEq, Prod.mk.injEq, and_imp, forall_apply_eq_imp_iff, forall_eq']
    exact ⟨hrunning', hiff⟩
  · intro halong
    obtain ⟨replies, e, hrun, -, before, since, htape, hle, hopened⟩ := Runs.exec_along
      (P := fun tape (e : MatchingEngine k) => e.Running pf ∧
        Counted s p (rm.entry s.toNat p.toNat).windowStart tape e)
      (fun tape e a ⟨hrunning, hcounted⟩ hok => by
        obtain ⟨reply, e', hstep, heffect, hrunning', -, hlegs⟩ := hrunning.step a
        exact ⟨reply, e', hstep, hrunning', hcounted.step (heffect.windowStep hlegs s p)
          (heffect.tracked hlegs) hok⟩)
      calls [] { riskManager := rm }
      ⟨running_initial rm, [], [], rfl, by simp [hfresh], .inl ⟨rfl, rfl⟩⟩ halong
    exact ⟨replies, e, hrun, before, since, htape, hle, hopened.imp_right And.right⟩

/-- A third order within the second is refused by the rate limit, and the two
    accepted ones stay counted. -/
theorem only_accepted_orders_charged_third_refused :
    ∃ (calls : List (EngineCall × Clock)) (replies : List Reply) (e : MatchingEngine .map),
      Runs.exec (MatchingEngine.call .int64) ({} : MatchingEngine .map) calls = some (replies, e) ∧
      (e.riskManager.entry 1 7).ordersInWindow = 2 ∧
      CountsAccepted 1 7 0 (calls.zip replies) (e.riskManager.entry 1 7) := by
  let calls : List (EngineCall × Clock) :=
    [(.addSymbol 1 90 110 4 .none, fun _ => 0),
     (.setRiskLimits 1 7 { maxOrdersPerSecond := 2 }, fun _ => 0),
     (.submit ⟨0, 1, 7, .buy, .limit, 100, 4, .gtc⟩, fun _ => 5000000000),
     (.submit ⟨0, 1, 7, .buy, .limit, 101, 4, .gtc⟩, fun _ => 5000000001),
     (.submit ⟨0, 1, 7, .buy, .limit, 102, 4, .gtc⟩, fun _ => 5000000002)]
  obtain ⟨replies, e, hrun, hcounts⟩ :=
    (only_accepted_orders_charged_iff .int64 .map {} 1 7 rfl calls).2 (by decide +kernel)
  have htwo : (e.riskManager.entry 1 7).ordersInWindow = 2 := by
    refine Runs.exec_any (P := fun _ e => (e.riskManager.entry 1 7).ordersInWindow = 2) hrun ?_
    decide +kernel
  exact ⟨calls, replies, e, hrun, htwo, hcounts⟩

/-- Two orders without a quantity are counted and then rejected by the book;
    the first good order finds the budget used up. -/
theorem rejected_orders_charged :
    (Runs.exec (MatchingEngine.call .int64) ({} : MatchingEngine .map)
      [(.addSymbol 1 90 110 4 .none, fun _ => 0),
       (.setRiskLimits 1 7 { maxOrdersPerSecond := 2 }, fun _ => 0),
       (.submit ⟨0, 1, 7, .buy, .limit, 100, 0, .gtc⟩, fun _ => 5000000000),
       (.submit ⟨0, 1, 7, .buy, .limit, 100, 0, .gtc⟩, fun _ => 5000000001),
       (.submit ⟨0, 1, 7, .buy, .limit, 100, 4, .gtc⟩, fun _ => 5000000002)]).map
        (fun x => (x.1, (x.2.riskManager.entry 1 7).ordersInWindow)) =
      some ([⟨.done, []⟩, ⟨.done, []⟩, ⟨.report (.reject 1 .invalidQuantity), []⟩,
        ⟨.report (.reject 2 .invalidQuantity), []⟩,
        ⟨.report (.reject 3 .riskRateLimited), []⟩], 2) := by
  decide +kernel

end LightningLob
